import EventSchema.Proofs.Reading

/-!
What an expansion comes to.

An expansion is fixed by the files, so what it comes to is a computation that may fault, without a run
that is carried along. The equations here say so function by function.
-/

set_option autoImplicit false

namespace EventSchema

variable {tree : Tree}

theorem Fragment.content_load (file : Path) : (Fragment.load tree file).content =
    tree.resolveNamed file >>= fun key => ofFile tree key :=
  (load_eq file (Run.faithful_start tree)).1

namespace Include

theorem content_find (places : Places) (name : Text) : (find tree places name).content = do
    let path ← tree.resolveNamed (← places.find tree name)
    return (path, ← (Fragment.load tree path).content) := by
  have loads (path : Path) : (do
      return (path, ← Fragment.load tree path) : Act (Path × Fields)).Fixed tree :=
    (Fragment.fixed_load path).bind fun _ _ => Act.fixed_pure _
  unfold find
  rw [Act.content_bind (Act.fixed_lift _) fun _ _ => (Act.fixed_lift _).bind fun path _ => loads path,
    Act.content_lift]
  refine congrArg (_ >>= ·) (funext fun named => ?_)
  rw [Act.content_bind (Act.fixed_lift _) fun path _ => loads path, Act.content_lift]
  refine congrArg (_ >>= ·) (funext fun path => ?_)
  rw [Act.content_bind (Fragment.fixed_load path) fun _ _ => Act.fixed_pure _]
  rfl

variable {reader : Reader}

theorem content_mergeAll (fixed : ∀ name context, (reader name context).Fixed tree) (context : Text)
    (names : List Text) (item : Fields) :
    (mergeAll reader context names item).content = names.foldlM (fun item name => do
      match ← (reader name context).content with
      | some included => (mergeIncluded context item included).content
      | none => return item) item := by
  have step (item : Fields) (included : Option Fields) : (match included with
      | some included => mergeIncluded context item included
      | none => pure item : Act Fields).Fixed tree := by
    cases included with
    | none => exact Act.fixed_pure item
    | some included => exact fixed_mergeIncluded context item included
  have each (item : Fields) : ∀ name ∈ names, (do
      match ← reader name context with
      | some included => mergeIncluded context item included
      | none => return item : Act Fields).Fixed tree :=
    fun name _ => (fixed name context).bind fun included _ => step item included
  refine (Act.content_foldlM item each).trans ?_
  refine congrArg (List.foldlM · item names) (funext fun state => funext fun name => ?_)
  refine (Act.content_bind (fixed name context) fun included _ => step state included).trans ?_
  refine congrArg (_ >>= ·) (funext fun included => ?_)
  cases included with
  | none => rfl
  | some included => rfl

theorem content_mergeUnder (fixed : ∀ name context, (reader name context).Fixed tree) (context : Text)
    (names : List Text) (value : Value) :
    (mergeUnder reader context names value).content = names.foldlM (fun merged name => do
      match ← (reader name context).content with
      | some included => return Value.merge (.record (Entries.erase "attributes" included)) merged
      | none => return merged) value := by
  have step (merged : Value) (included : Option Fields) : (match included with
      | some included => pure (Value.merge (.record (Entries.erase "attributes" included)) merged)
      | none => pure merged : Act Value).Fixed tree := by
    cases included with
    | none => exact Act.fixed_pure _
    | some included => exact Act.fixed_pure _
  have each (merged : Value) : ∀ name ∈ names, (do
      match ← reader name context with
      | some included => return Value.merge (.record (Entries.erase "attributes" included)) merged
      | none => return merged : Act Value).Fixed tree :=
    fun name _ => (fixed name context).bind fun included _ => step merged included
  refine (Act.content_foldlM value each).trans ?_
  refine congrArg (List.foldlM · value names) (funext fun state => funext fun name => ?_)
  refine (Act.content_bind (fixed name context) fun included _ => step state included).trans ?_
  refine congrArg (_ >>= ·) (funext fun included => ?_)
  cases included with
  | none => rfl
  | some included => rfl

theorem content_expandAttribute (fixed : ∀ name context, (reader name context).Fixed tree)
    (context name : Text) (mark : Option Nat) (fields : Fields) :
    (expandAttribute reader context name (.object mark fields)).content =
      (match Entries.get? directive fields with
      | none => .ok (.object mark fields)
      | some given => do
        let context := context ++ " attributes." ++ name ++ ".$include"
        let names ← fileNames context given
        (mergeUnder reader context names (.object mark (Entries.erase directive fields))).content) := by
  unfold expandAttribute
  dsimp only
  cases Entries.get? directive fields with
  | none => rfl
  | some given =>
      dsimp only
      rw [Act.content_bind (Act.fixed_lift _) fun names _ => fixed_mergeUnder fixed _ names _,
        Act.content_lift]

def expandEach (reader : Reader) (context : Text) (item : Fields) : Except Fault Fields := do
  let attributes ← (Entries.orNull "attributes" item).asFields
  let expanded ← attributes.mapM fun entry => do
    return (entry.1, ← (expandAttribute reader context entry.1 entry.2).content)
  return Entries.put "attributes" (.record expanded) item

theorem content_expandWith (fixed : ∀ name context, (reader name context).Fixed tree) (context : Text)
    (item : Fields) :
    (expandWith reader context item).content = match Entries.get? "attributes" item with
      | some (.object mark attributes) => match Entries.get? directive attributes with
        | none => expandEach reader context item
        | some given => do
          let names ← fileNames (context ++ " attributes.$include") given
          let merged ← (mergeAll reader (context ++ " attributes.$include") names
            (Entries.put "attributes" (.object mark (Entries.erase directive attributes)) item)).content
          expandEach reader context merged
      | _ => .ok item := by
  unfold expandWith
  cases found : Entries.get? "attributes" item with
  | none => rfl
  | some value =>
      cases value with
      | object mark attributes =>
          extract_lets finish
          have each (entry : Text × Value) : (do
              return (entry.1, ← expandAttribute reader context entry.1 entry.2) :
                Act (Text × Value)).Fixed tree :=
            (fixed_expandAttribute fixed context entry.1 entry.2).bind fun _ _ => Act.fixed_pure _
          have eachFixed (attributes : Fields) : (attributes.mapM fun entry => do
              return (entry.1, ← expandAttribute reader context entry.1 entry.2) : Act Fields).Fixed tree :=
            Act.fixed_mapM fun entry _ => each entry
          have finishFixed (item : Fields) : (finish item).Fixed tree := by
            refine (Act.fixed_lift _).bind fun attributes _ => ?_
            exact (eachFixed attributes).bind fun _ _ => Act.fixed_pure _
          have finishContent (item : Fields) : (finish item).content = expandEach reader context item := by
            unfold finish expandEach
            rw [Act.content_bind (Act.fixed_lift _) fun attributes _ =>
              (eachFixed attributes).bind fun _ _ => Act.fixed_pure _, Act.content_lift]
            refine congrArg (_ >>= ·) (funext fun attributes => ?_)
            rw [Act.content_bind (eachFixed attributes) fun _ _ => Act.fixed_pure _,
              Act.content_mapM fun entry _ => each entry]
            refine congrArg (· >>= _) (mapM_congr fun entry _ => ?_)
            rw [Act.content_bind (fixed_expandAttribute fixed context entry.1 entry.2) fun _ _ =>
              Act.fixed_pure _]
            rfl
          dsimp only
          cases Entries.get? directive attributes with
          | none => exact finishContent item
          | some given =>
              dsimp only
              rw [Act.content_bind (Act.fixed_lift _) fun names _ =>
                (fixed_mergeAll fixed _ names _).bind fun item _ => finishFixed item, Act.content_lift]
              refine congrArg (_ >>= ·) (funext fun names => ?_)
              rw [Act.content_bind (fixed_mergeAll fixed _ names _) fun item _ => finishFixed item]
              exact congrArg (_ >>= ·) (funext finishContent)
      | null | bool _ | int _ | float _ | text _ | array _ => rfl

/-- A file that can be read is given by its expanded fragment, unless it is being expanded already. -/
theorem content_read (places : Places) (stack : List Path) (name context : Text) :
    (read tree places stack name context).content = match (find tree places name).content with
      | .error fault => if isTolerated fault then .ok none else .error fault
      | .ok (path, fragment) =>
        if path ∈ stack then .error (.integrity (.includeCycle context (stack ++ [path])))
        else if path ∈ candidates tree then
          some <$> (expandWith (read tree places (stack ++ [path])) ("include " ++ name.enclosed)
            fragment).content
        else .error (.file (.missing path)) := by
  have found : (find tree places name).attempt.Fixed tree := (fixed_find places name).attempt
  rw [Include.read]
  unfold Act.content
  rw [Act.outcome_bind, Act.outcome_attempt]
  dsimp only
  have kept := (found {} (Run.faithful_start tree)).2.faithful
  rw [Act.outcome_attempt] at kept
  generalize (find tree places name).outcome {} = told at kept ⊢
  obtain ⟨outcome, run⟩ := told
  cases outcome with
  | error fault =>
      dsimp only
      by_cases tolerated : isTolerated fault = true
      · rw [if_pos tolerated, if_pos tolerated]
        rfl
      · rw [if_neg tolerated, if_neg tolerated]
        rfl
  | ok file =>
      obtain ⟨path, fragment⟩ := file
      dsimp only at kept ⊢
      by_cases entered : path ∈ stack
      · rw [dif_pos entered, if_pos entered]
        rfl
      · rw [dif_neg entered, if_neg entered]
        by_cases present : path ∈ candidates tree
        · rw [dif_pos present, if_pos present]
          have deeper : (expandWith (read tree places (stack ++ [path])) ("include " ++ name.enclosed)
              fragment).Fixed tree := fixed_expandWith (fixed_read places _) _ fragment
          have wrapped := deeper.bind fun included _ => Act.fixed_pure (some included)
          have noted : (note (.including context path)).Fixed tree := Act.fixed_note rfl
          refine ((noted.bind fun _ _ => wrapped) run kept).1.trans ?_
          rw [Act.content_bind noted fun _ _ => wrapped, Act.content_bind deeper fun _ _ => Act.fixed_pure _]
          rfl
        · rw [dif_neg present, if_neg present]
          rfl

def outermost (tree : Tree) : Option Path → Except Fault (List Path)
  | some file => do return [← tree.resolveNamed file]
  | none => .ok []

theorem content_expand (places : Places) (context : Text) (origin : Option Path) (item : Fields) :
    (expand tree places context origin item).content = outermost tree origin >>= fun stack =>
      (expandWith (read tree places stack) context item).content := by
  have fixed (stack : List Path) : (expandWith (read tree places stack) context item).Fixed tree :=
    fixed_expandWith (fixed_read places stack) context item
  rw [expand_eq]
  unfold outermost
  cases origin with
  | none => rfl
  | some file =>
      refine (Act.content_bind (Act.fixed_lift _) fun path _ => fixed [path]).trans ?_
      rw [Act.content_lift]
      dsimp only
      cases tree.resolveNamed file with
      | error fault => rfl
      | ok path => rfl

end Include

end EventSchema
