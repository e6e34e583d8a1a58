import EventSchema.Proofs.Include.Files

/-!
How deep an expansion goes.

The expansion asks of each file whether it is one of the tree before it enters it. Nothing depends on that
question: reading unrolled to a fixed depth, without it, is the same reading as long as the depth is above
the number of files of the tree, whatever would be read beyond. So no chain of files that are entered one
inside another is longer than the tree is large, and the expansion ends.
-/

set_option autoImplicit false

namespace EventSchema

variable {α β : Type} {tree : Tree}

/-! ### Actions that run alike -/

namespace Act

/-- In every run that read the files of the tree, both actions do the same. -/
def Alike (tree : Tree) (act other : Act α) : Prop :=
  ∀ run, run.Faithful tree → act.outcome run = other.outcome run

private theorem alike_refl (act : Act α) : act.Alike tree act := fun _ _ => rfl

theorem Alike.bind {first other : Act α} {next later : α → Act β} (alike : first.Alike tree other)
    (fixed : first.Fixed tree)
    (each : ∀ value, first.content = .ok value → (next value).Alike tree (later value)) :
    (first >>= next).Alike tree (other >>= later) := by
  intro run faithful
  rw [outcome_bind, outcome_bind, ← alike run faithful]
  cases ran : first.outcome run with
  | mk outcome middle =>
      cases outcome with
      | error fault => rfl
      | ok value =>
          obtain ⟨known, kept⟩ := fixed.step faithful ran
          exact each value known middle kept

private theorem alike_mapM {act other : α → Act β} {items : List α}
    (alike : ∀ item ∈ items, (act item).Alike tree (other item))
    (fixed : ∀ item ∈ items, (act item).Fixed tree) : (items.mapM act).Alike tree (items.mapM other) := by
  induction items with
  | nil => exact alike_refl _
  | cons head rest ih =>
      rw [List.mapM_cons, List.mapM_cons]
      refine (alike head (List.mem_cons_self ..)).bind (fixed head (List.mem_cons_self ..)) fun value _ => ?_
      exact (ih (fun item member => alike item (List.mem_cons_of_mem _ member)) fun item member =>
        fixed item (List.mem_cons_of_mem _ member)).bind
          (fixed_mapM fun item member => fixed item (List.mem_cons_of_mem _ member)) fun _ _ => alike_refl _

private theorem alike_foldlM {step other : β → α → Act β} {items : List α} (start : β)
    (alike : ∀ state, ∀ item ∈ items, (step state item).Alike tree (other state item))
    (fixed : ∀ state, ∀ item ∈ items, (step state item).Fixed tree) :
    (items.foldlM step start).Alike tree (items.foldlM other start) := by
  induction items generalizing start with
  | nil => exact alike_refl _
  | cons head rest ih =>
      rw [List.foldlM_cons, List.foldlM_cons]
      exact (alike start head (List.mem_cons_self ..)).bind (fixed start head (List.mem_cons_self ..))
        fun state _ => ih state (fun state item member => alike state item (List.mem_cons_of_mem _ member))
          fun state item member => fixed state item (List.mem_cons_of_mem _ member)

end Act

namespace Include

variable {places : Places}

/-! ### Expanding with readers that run alike -/

section Readers

variable {reader other : Reader} (alike : ∀ name context, (reader name context).Alike tree (other name context))
  (fixed : ∀ name context, (reader name context).Fixed tree)
include alike fixed

private theorem alike_mergeAll (context : Text) (names : List Text) (item : Fields) :
    (mergeAll reader context names item).Alike tree (mergeAll other context names item) := by
  refine Act.alike_foldlM item (fun state name _ => ?_) fun state name _ => ?_
  · exact (alike name context).bind (fixed name context) fun _ _ => Act.alike_refl _
  · refine (fixed name context).bind fun included _ => ?_
    cases included with
    | none => exact Act.fixed_pure _
    | some included => exact fixed_mergeIncluded context state included

private theorem alike_mergeUnder (context : Text) (names : List Text) (value : Value) :
    (mergeUnder reader context names value).Alike tree (mergeUnder other context names value) := by
  refine Act.alike_foldlM value (fun state name _ => ?_) fun state name _ => ?_
  · exact (alike name context).bind (fixed name context) fun _ _ => Act.alike_refl _
  · refine (fixed name context).bind fun included _ => ?_
    cases included with
    | none => exact Act.fixed_pure _
    | some included => exact Act.fixed_pure _

private theorem alike_expandAttribute (context name : Text) (value : Value) :
    (expandAttribute reader context name value).Alike tree (expandAttribute other context name value) := by
  unfold expandAttribute
  split
  · split
    · exact Act.alike_refl _
    · exact (Act.alike_refl _).bind (Act.fixed_lift _) fun names _ => alike_mergeUnder alike fixed _ names _
  · exact Act.alike_refl _

private theorem alike_expandWith (context : Text) (item : Fields) :
    (expandWith reader context item).Alike tree (expandWith other context item) := by
  unfold expandWith
  split
  · extract_lets finish place finish'
    have each (entry : Text × Value) : (do
        return (entry.1, ← expandAttribute reader context entry.1 entry.2) : Act (Text × Value)).Fixed tree :=
      (fixed_expandAttribute fixed context entry.1 entry.2).bind fun _ _ => Act.fixed_pure _
    have finishes (item : Fields) : (finish item).Alike tree (finish' item) := by
      refine (Act.alike_refl _).bind (Act.fixed_lift _) fun attributes _ => ?_
      refine (Act.alike_mapM (fun entry _ => ?_) fun entry _ => each entry).bind
        (Act.fixed_mapM fun entry _ => each entry) fun _ _ => Act.alike_refl _
      exact (alike_expandAttribute alike fixed context entry.1 entry.2).bind
        (fixed_expandAttribute fixed context entry.1 entry.2) fun _ _ => Act.alike_refl _
    split
    · exact (Act.alike_refl _).bind (Act.fixed_pure _) fun item _ => finishes item
    · refine (Act.alike_refl _).bind (Act.fixed_lift _) fun names _ => ?_
      exact (alike_mergeAll alike fixed _ names _).bind (fixed_mergeAll fixed _ names _) fun item _ =>
        finishes item
  · exact Act.alike_refl _

end Readers

/-! ### Reading unrolled -/

/-- Reading where at most `depth` files are entered one inside another: beyond, `last` is asked. Any file that
can be read is entered, unless it is being expanded. -/
def readUpTo (tree : Tree) (places : Places) (last : Reader) : Nat → List Path → Reader
  | 0, _ => last
  | depth + 1, stack => fun name context => do
    match ← (find tree places name).attempt with
    | .error fault =>
      if isTolerated fault then
        leaveUnresolved (.notIncluded context name fault)
        return none
      else throw fault
    | .ok (path, fragment) =>
      if path ∈ stack then throw (.integrity (.includeCycle context (stack ++ [path])))
      else
        note (.including context path)
        let included ← expandWith (readUpTo tree places last depth (stack ++ [path]))
          ("include " ++ name.enclosed) fragment
        return some included

/-- An expansion that enters at most `depth` files one inside another. -/
def expandUpTo (tree : Tree) (places : Places) (last : Reader) (depth : Nat) (context : Text)
    (origin : Option Path) (item : Fields) : Act Fields := do
  let stack ← match origin with
    | some file => do pure [← tree.resolveNamed file]
    | none => pure []
  expandWith (readUpTo tree places last depth stack) context item

/-- A depth above the number of files that are left to enter is not reached. -/
theorem alike_readUpTo {entries : List (Text × Node)} (rooted : tree.root = .folder entries) (last : Reader)
    {depth : Nat} {stack : List Path} (enough : ((candidates tree).filter (· ∉ stack)).length < depth)
    (name context : Text) :
    (read tree places stack name context).Alike tree (readUpTo tree places last depth stack name context) := by
  induction depth generalizing stack name context with
  | zero => exact absurd enough (Nat.not_lt_zero _)
  | succ depth ih =>
      rw [Include.read, readUpTo]
      refine (Act.alike_refl _).bind (fixed_find places name).attempt fun outcome known => ?_
      cases outcome with
      | error fault => exact Act.alike_refl _
      | ok found =>
          obtain ⟨path, fragment⟩ := found
          rw [Act.content_attempt, Except.ok.injEq] at known
          dsimp only
          by_cases entered : path ∈ stack
          · rw [dif_pos entered, if_pos entered]
            exact Act.alike_refl _
          · have present := (find_ok rooted known).1
            have fewer := remaining_lt present entered
            rw [dif_neg entered, if_neg entered, dif_pos present]
            refine (Act.alike_refl _).bind (Act.fixed_note rfl) fun _ _ => ?_
            exact (alike_expandWith (ih (by omega)) (fixed_read places _) _ fragment).bind
              (fixed_expandWith (fixed_read places _) _ fragment) fun _ _ => Act.alike_refl _

/-- An expansion enters no more files one inside another than the tree has. -/
theorem alike_expandUpTo {entries : List (Text × Node)} (rooted : tree.root = .folder entries) (last : Reader)
    {depth : Nat} (enough : (candidates tree).length < depth) (context : Text) (origin : Option Path)
    (item : Fields) :
    (expand tree places context origin item).Alike tree (expandUpTo tree places last depth context origin item) := by
  have within (stack : List Path) : ((candidates tree).filter (· ∉ stack)).length < depth :=
    Nat.lt_of_le_of_lt (List.length_filter_le ..) enough
  have same (stack : List Path) : (expandWith (read tree places stack) context item).Alike tree
      (expandWith (readUpTo tree places last depth stack) context item) :=
    alike_expandWith (alike_readUpTo rooted last (within stack)) (fixed_read places stack) context item
  rw [expand_eq]
  unfold expandUpTo
  extract_lets rest rest'
  cases origin with
  | none => exact (Act.alike_refl _).bind (Act.fixed_pure _) fun stack _ => same stack
  | some file =>
      exact (Act.alike_refl _).bind (Act.fixed_lift _) fun _ _ =>
        (Act.alike_refl _).bind (Act.fixed_pure _) fun stack _ => same stack

end Include

end EventSchema
