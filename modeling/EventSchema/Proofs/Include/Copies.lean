import EventSchema.Compilation
import EventSchema.Proofs.Cache

/-!
Expanding copies.

An expansion works in place, on an item and on copies of what the item includes. No object of these is an
object of the cache, so none of the changes reaches it, and the whole expansion can be told on values: the
functions here say what becomes of the item and do not mention the cache, and each of the functions that
work in place comes to the same on values that share nothing with it.
-/

set_option autoImplicit false

namespace EventSchema

/-! ### On values -/

namespace Include

def mergeIncluded (context : Text) (item included : Fields) : Act Fields := do
  let included := Value.shiftFields (Value.boundFields item) included
  match Entries.get? "attributes" included with
  | none =>
    warn (.includeWithoutFields context)
    return item
  | some attributes =>
    let isProfile := match Entries.get? "meta" included with
      | some sort => sort.equals (.text "profile")
      | none => false
    let attributes ←
      if isProfile then
        match Entries.get? "name" included with
        | none => throw (.definition (.profileWithoutName context))
        | some name =>
          let name := (Value.mark (max (Value.boundFields item) (Value.boundFields included)) name).1
          pure (Value.record (tag name (← attributes.asFields)))
      else pure attributes
    let own ← (Entries.orNull "attributes" item).asFields
    return Entries.put "attributes" (← mergeOwn attributes own) item

/-- How an included file is read: by its name, in the given context; none if it cannot be. -/
abbrev Reader := Text → Text → Act (Option Fields)

def mergeAll (read : Reader) (context : Text) (names : List Text) (item : Fields) : Act Fields :=
  names.foldlM (fun item name => do
    match ← read name context with
    | some included => mergeIncluded context item included
    | none => return item) item

def mergeUnder (read : Reader) (context : Text) (names : List Text) (value : Value) :
    Act Value :=
  names.foldlM (fun merged name => do
    match ← read name context with
    | some included =>
      return Value.merge (.record (Entries.erase "attributes" included)) merged
    | none => return merged) value

def expandAttribute (read : Reader) (context name : Text) : Value → Act Value
  | .object mark fields =>
    match Entries.get? directive fields with
    | none => return .object mark fields
    | some given => do
      let context := context ++ " attributes." ++ name ++ ".$include"
      let names ← fileNames context given
      mergeUnder read context names (.object mark (Entries.erase directive fields))
  | value => return value

def expandWith (read : Reader) (context : Text) (item : Fields) : Act Fields := do
  match Entries.get? "attributes" item with
  | some (.object mark attributes) =>
    let item ← match Entries.get? directive attributes with
      | none => pure item
      | some given => do
        let context := context ++ " attributes.$include"
        let names ← fileNames context given
        mergeAll read context names
          (Entries.put "attributes" (.object mark (Entries.erase directive attributes)) item)
    let attributes ← (Entries.orNull "attributes" item).asFields
    let expanded ← attributes.mapM fun entry => do
      return (entry.1, ← expandAttribute read context entry.1 entry.2)
    return Entries.put "attributes" (.record expanded) item
  | _ => return item

/-- The resolved path and the fragment of a file that an item names. -/
def find (tree : Tree) (places : Places) (name : Text) : Act (Path × Fields) := do
  let path ← tree.resolveNamed (← places.find tree name)
  return (path, ← Fragment.load tree path)

/-- The expanded fragment of an included file. `stack` holds the files that are being expanded,
outermost first. -/
def read (tree : Tree) (places : Places) (stack : List Path) (name context : Text) :
    Act (Option Fields) := do
  match ← (find tree places name).attempt with
  | .error fault =>
    if isTolerated fault then
      leaveUnresolved (.notIncluded context name fault)
      return none
    else throw fault
  | .ok (path, fragment) =>
    if _ : path ∈ stack then
      throw (.integrity (.includeCycle context (stack ++ [path])))
    else if _ : path ∈ candidates tree then
      note (.including context path)
      let included ← expandWith (fun name context => read tree places (stack ++ [path]) name context)
        ("include " ++ name.enclosed) fragment
      return some included
    else throw (.file (.missing path))
termination_by ((candidates tree).filter (· ∉ stack)).length
decreasing_by exact remaining_lt (by assumption) (by assumption)

end Include

theorem foldlM_map {α σ τ : Type} {f : σ → τ} {step : σ → α → Act σ} {step' : τ → α → Act τ} (items : List α)
    (state : σ) (same : ∀ state item, step' (f state) item = f <$> step state item) :
    items.foldlM step' (f state) = f <$> items.foldlM step state := by
  induction items generalizing state with
  | nil => rfl
  | cons head rest ih =>
      rw [List.foldlM_cons, List.foldlM_cons, same, bind_map_left, map_bind]
      exact bind_congr ih

/-! ### Without aliases -/

namespace Aliases

private theorem put_none (key : Text) : none.put key none = none := by
  funext place
  cases place with
  | nil => rfl
  | cons name place =>
      exact ite_self _

private theorem putEach_none (key : Text) (gets : Text → Bool) : none.putEach key gets none = none := by
  funext place
  unfold putEach
  split
  · exact ite_self _
  · rfl

private theorem merge_none (dest source : Value) : none.merge none dest source = none := by
  funext place
  induction place generalizing dest source with
  | nil => cases dest <;> cases source <;> rfl
  | cons key place ih =>
      cases dest <;> cases source <;> try rfl
      unfold merge
      split
      · rfl
      · rfl
      · exact ih _ _

end Aliases

namespace Aliased

abbrev item (fields : Fields) : Aliased := own (.record fields)

/-- A value that shares nothing with the cache does not change it. -/
theorem write_own (value : Value) : (own value).write = pure (own value) := by
  have lends : (own value).lent = [] := by
    unfold lent
    exact List.filterMap_eq_nil_iff.mpr fun _ _ => rfl
  unfold write
  rw [lends]
  rfl

private theorem get?_item (key : Text) (fields : Fields) :
    (item fields).get? key = (Entries.get? key fields).map own := rfl

private theorem get?_object (key : Text) (mark : Option Nat) (fields : Fields) (aliases : Aliases) :
    get? key ⟨.object mark fields, aliases⟩ =
      (Entries.get? key fields).map fun value => ⟨value, aliases.below key⟩ := rfl

private theorem put_item (key : Text) (fields : Fields) (value : Value) :
    (item fields).put key (own value) = item (Entries.put key value fields) :=
  congrArg (Aliased.mk (.record (Entries.put key value fields))) (Aliases.put_none key)

private theorem orNull_item (key : Text) (fields : Fields) :
    (item fields).orNull key = own (Entries.orNull key fields) := by
  unfold orNull Entries.orNull Entries.getOr
  rw [get?_item]
  cases Entries.get? key fields <;> rfl

private theorem withAttribute_item (fields before after : Fields) (name : Text) (value : Value) :
    (item fields).withAttribute before name (own value) after =
      item (Entries.put "attributes" (.record (before ++ (name, value) :: after)) fields) := by
  rw [← put_item]
  exact congrArg (fun aliases => (item fields).put "attributes" ⟨_, aliases⟩) (Aliases.put_none name)

private theorem merge_own (dest source : Value) : (own dest).merge (own source) = own (Value.merge dest source) :=
  congrArg (Aliased.mk (Value.merge dest source)) (Aliases.merge_none dest source)

private theorem tag_own (name attributes : Value) : (own name).tag (own attributes) =
    (fun fields => item (Include.tag name fields)) <$> attributes.asFields := by
  unfold tag
  dsimp only [own]
  cases attributes.asFields with
  | error fault => rfl
  | ok fields =>
      simp only [Aliases.putEach_none]
      rfl

private theorem mergeOwn_own (included attributes : Value) (fields : Fields) :
    (own included).mergeOwn (own attributes) fields = own <$> Include.mergeOwn included fields := by
  unfold mergeOwn
  dsimp only [own]
  rw [Aliases.merge_none]
  rfl

private theorem adopt_item (fields : Fields) (attributes : Value) : (item fields).adopt (own attributes) = item <$> (do
    let owned ← (Entries.orNull "attributes" fields).asFields
    return Entries.put "attributes" (← Include.mergeOwn attributes owned) fields : Act Fields) := by
  unfold adopt
  simp only [orNull_item, mergeOwn_own]
  dsimp only [own]
  cases (Entries.orNull "attributes" fields).asFields with
  | error fault => rfl
  | ok owned =>
      change ((liftM (own <$> Include.mergeOwn attributes owned) : Act Aliased) >>= fun merged =>
          merged.write >>= fun merged => ((item fields).put "attributes" merged).write) =
        item <$> ((liftM (Include.mergeOwn attributes owned) : Act Value) >>= fun merged =>
          pure (Entries.put "attributes" merged fields))
      cases Include.mergeOwn attributes owned with
      | error fault => rfl
      | ok merged =>
          change (own merged).write >>= (fun merged => ((item fields).put "attributes" merged).write) =
            pure (item (Entries.put "attributes" merged fields))
          rw [write_own, pure_bind, put_item, write_own]

/-- What becomes of an item that shares nothing with the cache, if it is merged with a copy. -/
theorem mergeIncluded_item (context : Text) (fields included : Fields) :
    (item fields).mergeIncluded context (item included) =
      item <$> Include.mergeIncluded context fields included := by
  have shifted : ({ item included with
      value := (item included).value.shift (item fields).value.bound } : Aliased) =
        item (Value.shiftFields (Value.boundFields fields) included) := rfl
  unfold mergeIncluded Include.mergeIncluded
  rw [shifted]
  generalize Value.shiftFields (Value.boundFields fields) included = included
  dsimp only
  rw [get?_item, get?_item, get?_item]
  cases Entries.get? "attributes" included with
  | none => rfl
  | some attributes =>
      cases Entries.get? "meta" included with
      | none => exact adopt_item fields attributes
      | some sort =>
          dsimp only [Option.map_some, own]
          by_cases isProfile : sort.equals (.text "profile") = true
          · refine (if_pos isProfile).trans (Eq.trans ?_ (congrArg (item <$> ·) (if_pos isProfile).symm))
            cases Entries.get? "name" included with
            | none => rfl
            | some name =>
                let marked := (Value.mark (max (Value.boundFields fields) (Value.boundFields included)) name).1
                change ((liftM ((own marked).tag (own attributes)) : Act Aliased) >>= fun tagged =>
                  tagged.write >>= fun tagged => (item fields).adopt tagged) = _
                rw [tag_own]
                cases attributes.asFields with
                | error fault => rfl
                | ok untagged =>
                    change (item (Include.tag marked untagged)).write >>= (fun tagged => (item fields).adopt tagged) = _
                    rw [write_own, pure_bind]
                    exact adopt_item fields (.record (Include.tag marked untagged))
          · refine (if_neg isProfile).trans (Eq.trans ?_ (congrArg (item <$> ·) (if_neg isProfile).symm))
            exact adopt_item fields attributes

section Readers

variable {read : Reader} {reader : Include.Reader}
  (reads : ∀ name context, read name context = Option.map item <$> reader name context)
include reads

private theorem mergeAll_item (context : Text) (names : List Text) (fields : Fields) :
    mergeAll read context names (item fields) = item <$> Include.mergeAll reader context names fields := by
  refine foldlM_map names fields fun fields name => ?_
  rw [reads, bind_map_left, map_bind]
  refine bind_congr fun included => ?_
  cases included with
  | none => rfl
  | some included => exact mergeIncluded_item context fields included

private theorem mergeUnder_own (context : Text) (names : List Text) (value : Value) :
    mergeUnder read context names (own value) = own <$> Include.mergeUnder reader context names value := by
  refine foldlM_map names value fun merged name => ?_
  rw [reads, bind_map_left, map_bind]
  refine bind_congr fun included => ?_
  cases included with
  | none => rfl
  | some included =>
      change (item (Entries.erase "attributes" included)).write >>= (fun included =>
        (included.merge (own merged)).write) = _
      rw [write_own, pure_bind, merge_own, write_own]
      rfl

private theorem expandEach_item (context : Text) (fields done rest : Fields) :
    expandEach read context (item fields) done rest =
      (fun expanded => item (Entries.put "attributes" (.record (done ++ expanded)) fields)) <$>
        rest.mapM fun entry => do
          return (entry.1, ← Include.expandAttribute reader context entry.1 entry.2) := by
  induction rest generalizing fields done with
  | nil => 
      rw [List.mapM_nil, map_pure, List.append_nil, ← put_item]
      rfl
  | cons head rest ih =>
      obtain ⟨name, value⟩ := head
      have later (fields : Fields) (expanded : Value) :
          (fun others => item (Entries.put "attributes" (.record (done ++ [(name, expanded)] ++ others)) fields)) =
            fun others : Fields =>
              item (Entries.put "attributes" (.record (done ++ (name, expanded) :: others)) fields) := by
        funext others
        rw [List.append_assoc, List.singleton_append]
      have undirected (plain : Include.expandAttribute reader context name value = pure value) :
          expandEach read context (item fields) (done ++ [(name, value)]) rest =
            (fun expanded => item (Entries.put "attributes" (.record (done ++ expanded)) fields)) <$>
              ((name, value) :: rest).mapM fun entry => do
                return (entry.1, ← Include.expandAttribute reader context entry.1 entry.2) := by
        rw [ih, later, List.mapM_cons, plain, pure_bind, pure_bind, map_bind]
        simp only [map_pure]
        rw [bind_pure_comp]
      cases value with
      | object mark own =>
          cases found : Entries.get? Include.directive own with
          | none =>
              refine Eq.trans ?_ (undirected (by rw [Include.expandAttribute, found]))
              rw [expandEach, get?_object, found]
              rfl
          | some given =>
              rw [expandEach, get?_object, found]
              let bare : Value := .object mark (Entries.erase Include.directive own)
              change ((item fields).withAttribute done name (Aliased.own bare) rest).write >>= (fun item => do
                let names ← Include.fileNames (context ++ " attributes." ++ name ++ ".$include") given
                let merged ← mergeUnder read (context ++ " attributes." ++ name ++ ".$include") names
                  (Aliased.own bare)
                let item ← (item.withAttribute done name merged rest).write
                expandEach read context item (done ++ [(name, merged.value)]) rest) = _
              rw [withAttribute_item, write_own, pure_bind, List.mapM_cons, Include.expandAttribute, found]
              dsimp only
              simp only [mergeUnder_own reads, bind_assoc, map_bind, bind_map_left, withAttribute_item,
                write_own, pure_bind, Entries.put_put, ih, later, bind_pure_comp, Functor.map_map]
              rfl
      | null | bool _ | int _ | float _ | text _ | array _ => exact undirected rfl

private theorem expandWith_item (context : Text) (fields : Fields) :
    expandWith read context (item fields) = item <$> Include.expandWith reader context fields := by
  have finish (fields : Fields) : (do
      expandEach read context (item fields) [] (← ((item fields).orNull "attributes").value.asFields) : Act Aliased) =
        item <$> (do
          let attributes ← (Entries.orNull "attributes" fields).asFields
          let expanded ← attributes.mapM fun entry => do
            return (entry.1, ← Include.expandAttribute reader context entry.1 entry.2)
          return Entries.put "attributes" (.record expanded) fields : Act Fields) := by
    rw [orNull_item, map_bind]
    refine bind_congr fun attributes => ?_
    rw [expandEach_item reads, map_bind]
    simp only [map_pure]
    rw [bind_pure_comp]
    rfl
  unfold expandWith Include.expandWith
  rw [get?_item]
  cases found : Entries.get? "attributes" fields with
  | none => rfl
  | some value =>
      cases value with
      | object mark attributes =>
          cases directed : Entries.get? Include.directive attributes with
          | none =>
              dsimp only [Option.map_some, own]
              rw [get?_object, directed]
              exact finish fields
          | some given =>
              dsimp only [Option.map_some, own]
              rw [get?_object, directed]
              let bare : Value := .object mark (Entries.erase Include.directive attributes)
              change ((item fields).put "attributes" (Aliased.own bare)).write >>= (fun item => do
                let names ← Include.fileNames (context ++ " attributes.$include") given
                let item ← mergeAll read (context ++ " attributes.$include") names item
                expandEach read context item [] (← (item.orNull "attributes").value.asFields)) = _
              rw [put_item, write_own, pure_bind]
              simp only [mergeAll_item reads, bind_map_left, finish]
              rw [map_bind]
              simp only [map_bind]
              rfl
      | null | bool _ | int _ | float _ | text _ | array _ => rfl

end Readers

end Aliased

private theorem Fragment.copy_borrow (tree : Tree) (file : Path) :
    Aliased.copy <$> borrow tree file = Aliased.item <$> load tree file := by
  unfold load
  rw [map_bind, borrow, map_bind, bind_assoc]
  refine bind_congr fun key => ?_
  rw [map_bind, bind_assoc]
  refine bind_congr fun run => ?_
  cases run.cache.get? key with
  | some fragment => rfl
  | none =>
      simp only [map_bind, bind_assoc, map_pure, pure_bind]
      rfl

namespace Include

variable (tree : Tree) (places : Places)

private theorem copy_find (name : Text) :
    (fun found => (found.1, found.2.copy)) <$> borrow tree places name =
      (fun found => (found.1, Aliased.item found.2)) <$> find tree places name := by
  unfold borrow find
  simp only [map_bind, map_pure]
  refine bind_congr fun named => bind_congr fun path => ?_
  have copied := congrArg (Prod.mk path <$> ·) (Fragment.copy_borrow tree path)
  simpa only [Functor.map_map, bind_pure_comp] using copied

/-- Whatever is done with a copy of what was borrowed is done with the fragment of the file. -/
theorem attempt_copy {β : Type} (name : Text) (next : Except Fault (Path × Aliased) → Act β) :
    ((borrow tree places name).attempt >>= fun found =>
        next ((fun found => (found.1, found.2.copy)) <$> found)) =
      (find tree places name).attempt >>= fun found =>
        next ((fun found => (found.1, Aliased.item found.2)) <$> found) := by
  have same := congrArg (fun act => act.attempt >>= next) (copy_find tree places name)
  simpa only [Act.attempt_map, bind_map_left] using same

/-- What is included is a copy, expanded without regard to the cache. -/
theorem readCopy_eq (stack : List Path) (name context : Text) :
    readCopy tree places stack name context = Option.map Aliased.item <$> read tree places stack name context := by
  rw [readCopy, read, map_bind]
  refine Eq.trans ?_ ((attempt_copy tree places name fun found => found.casesOn
    (fun fault =>
      if isTolerated fault then do
        leaveUnresolved (.notIncluded context name fault)
        return none
      else throw fault)
    (fun copied =>
      if _ : copied.1 ∈ stack then
        throw (.integrity (.includeCycle context (stack ++ [copied.1])))
      else if _ : copied.1 ∈ candidates tree then do
        note (.including context copied.1)
        let included ← copied.2.expandWith (readCopy tree places (stack ++ [copied.1]))
          ("include " ++ name.enclosed)
        return some included
      else throw (.file (.missing copied.1)))).trans ?_)
  · refine bind_congr fun found => ?_
    cases found <;> rfl
  · refine bind_congr fun found => ?_
    cases found with
    | error fault =>
        dsimp only [Except.map_error]
        by_cases tolerated : isTolerated fault = true
        · rw [if_pos tolerated, if_pos tolerated]
          rfl
        · rw [if_neg tolerated, if_neg tolerated]
          rfl
    | ok found =>
        obtain ⟨path, fragment⟩ := found
        dsimp only [Except.map_ok]
        by_cases entered : path ∈ stack
        · rw [dif_pos entered, dif_pos entered]
          rfl
        · rw [dif_neg entered, dif_neg entered]
          by_cases present : path ∈ candidates tree
          · rw [dif_pos present, dif_pos present, map_bind]
            refine bind_congr fun _ => ?_
            have deeper (name context : Text) := readCopy_eq (stack ++ [path]) name context
            rw [Aliased.expandWith_item deeper, bind_map_left, map_bind]
            rfl
          · rw [dif_neg present, dif_neg present]
            rfl
termination_by ((candidates tree).filter (· ∉ stack)).length
decreasing_by exact remaining_lt present entered

private theorem expandIn_item (context : Text) (origin : Option Path) (item : Fields) :
    expandIn tree places context origin (.item item) = Aliased.item <$> (do
      let stack ← match origin with
        | some file => do pure [← tree.resolveNamed file]
        | none => pure []
      expandWith (read tree places stack) context item : Act Fields) := by
  have each (stack : List Path) := Aliased.expandWith_item (readCopy_eq tree places stack) context item
  cases origin with
  | none => exact each []
  | some file =>
      refine Eq.trans ?_ (map_bind _ _ _).symm
      exact bind_congr fun path => each [path]

theorem expand_eq (context : Text) (origin : Option Path) (item : Fields) :
    expand tree places context origin item = (do
      let stack ← match origin with
        | some file => do pure [← tree.resolveNamed file]
        | none => pure []
      expandWith (read tree places stack) context item) := by
  unfold expand
  rw [expandIn_item, bind_map_left]
  exact bind_pure _

/-- What comes of an item is the item expanded, and none of it is in the cache. -/
theorem expandIn_eq (context : Text) (origin : Option Path) (item : Fields) :
    expandIn tree places context origin (.item item) = Aliased.item <$> expand tree places context origin item := by
  rw [expandIn_item, expand_eq]

end Include

/-- What a scan keeps of a file is a copy, which is expanded and stamped without regard to the cache. -/
theorem Scan.copied_eq (scan : Scan) (kind : Text) (file : Path) : scan.copied kind file = Aliased.item <$> (do
    let fragment ← Fragment.load scan.tree file
    let context := scan.context ++ " " ++ kind ++ " file " ++ file.name.enclosed
    let expanded ← Include.expand scan.tree scan.places context (some file) fragment
    return Entries.put "_origin" (.text file.text) expanded : Act Fields) := by
  let context := scan.context ++ " " ++ kind ++ " file " ++ file.name.enclosed
  let rest (copied : Aliased) : Act Aliased := do
    let expanded ← Include.expandIn scan.tree scan.places context (some file) copied
    (expanded.put "_origin" (.own (.text file.text))).write
  have copies := congrArg (· >>= rest) (Fragment.copy_borrow scan.tree file)
  rw [bind_map_left, bind_map_left] at copies
  refine Eq.trans copies ?_
  rw [map_bind]
  refine bind_congr fun fragment => ?_
  dsimp only
  rw [Include.expandIn_item, Include.expand_eq, bind_map_left, map_bind]
  refine bind_congr fun expanded => ?_
  rw [Aliased.put_item, Aliased.write_own, map_pure]

theorem Scan.document_eq_load (scan : Scan) (kind : Text) (file : Path) : scan.document kind file = (do
    let fragment ← Fragment.load scan.tree file
    let context := scan.context ++ " " ++ kind ++ " file " ++ file.name.enclosed
    let expanded ← Include.expand scan.tree scan.places context (some file) fragment
    return Entries.put "_origin" (.text file.text) expanded) := by
  unfold document
  rw [copied_eq, bind_map_left]
  exact bind_pure _

theorem Compilation.version_eq (c : Compilation) : c.version = (do
    let file := c.settings.schema.child "version.json"
    match ← (Fragment.load c.tree file).attempt with
    | .ok document =>
      match Entries.get? "version" document with
      | some version => return version
      | none =>
        warn (.versionKeyMissing file)
        return unversioned
    | .error (.file (.missing _)) =>
      warn (.versionFileMissing file unversioned)
      return unversioned
    | .error fault => throw fault) := by
  have loaded (file : Path) : (Fragment.load c.tree file).attempt =
      ((fun fragment => fragment.copy.fields) <$> ·) <$> (Fragment.borrow c.tree file).attempt :=
    Act.attempt_map _ _
  unfold version
  dsimp only
  rw [loaded, bind_map_left]
  refine bind_congr fun found => ?_
  cases found with
  | error fault =>
      cases fault with
      | file cause => cases cause <;> rfl
      | definition _ | document _ | duplicate _ | integrity _ | range _ | misuse _ => rfl
  | ok fragment =>
      have unchanged : fragment.copy.fields = fragment.fields := rfl
      dsimp only [Except.map_ok, Aliased.get?]
      rw [unchanged]
      cases Entries.get? "version" fragment.fields <;> rfl

end EventSchema
