import EventSchema.Proofs.Range.Basic
import EventSchema.Proofs.Reading

/-!
What is read is in range.

Files, directives, folders and extensions are read without any arithmetic of identifiers, and extensions
are compared only once all of them are read. Only the categories of an extension are given scoped uids, and
a uid that is not short ends the compilation.
-/

set_option autoImplicit false

namespace EventSchema

variable {α β : Type} {allowed : Fault → Prop} {run : Run}

/-- What is done with the outcome of an action, a fault of it included. -/
theorem Act.confined_attempt_bind {act : Act α} {next : Except Fault α → Act β}
    (own : Confined allowed (act.outcome run).1)
    (later : ∀ outcome after, Confined allowed outcome → Confined allowed ((next outcome).outcome after).1) :
    Confined allowed ((act.attempt >>= next).outcome run).1 := by
  rw [outcome_bind, outcome_attempt]
  exact later _ _ own

/-! ### Files -/

namespace Tree

@[simp]
theorem confined_checkName (p : Path) : Confined allowed (checkName p) := by
  unfold checkName
  split <;> simp

@[simp]
theorem confined_resolveNamed (tree : Tree) (p : Path) : Confined allowed (tree.resolveNamed p) := by
  simp [resolveNamed]

@[simp]
theorem confined_content (tree : Tree) (p : Path) : Confined allowed (tree.content p) := by
  unfold content
  refine Confined.bind_iff.mpr ⟨confined_checkName p, fun _ _ => ?_⟩
  split <;> simp

end Tree

namespace Fragment

@[simp]
theorem confined_annotate (file : Option Path) (fragment : Fields) : Confined allowed (annotate file fragment) := by
  unfold annotate
  extract_lets rest
  split
  · simp
  · split
    · split
      · split <;> simp
      · simp
    · simp

@[simp]
theorem confined_parse (file : Path) (bytes : List UInt8) : Confined allowed (parse file bytes) := by
  unfold parse
  split
  · simp
  · split <;> simp

@[simp]
theorem confined_readObject (tree : Tree) (file : Path) : Confined allowed (readObject tree file) := by
  simp [readObject]

@[simp]
theorem confined_ofFile (tree : Tree) (file : Path) : Confined allowed (ofFile tree file) := by simp [ofFile]

@[simp]
theorem confined_load (tree : Tree) (file : Path) : Confined allowed ((load tree file).outcome run).1 := by
  rw [outcome_load]
  have resolved : Confined allowed (tree.resolveNamed file) := tree.confined_resolveNamed file
  split
  · rename_i fault failed
    rw [failed] at resolved
    simpa using resolved
  · rename_i key _
    have given : Confined allowed (ofFile tree key) := confined_ofFile tree key
    split
    · simp
    · dsimp only
      split
      · rename_i fault failed
        rw [failed] at given
        simpa using given
      · simp

end Fragment

/-! ### Directives -/

namespace Include

variable {tree : Tree}

@[simp]
theorem confined_schema (tree : Tree) (name : Text) (folder : Path) :
    Confined allowed (Places.find tree name (.schema folder)) := by simp [Places.find]

@[simp]
theorem confined_extension (tree : Tree) (name : Text) (folder schema : Path) :
    Confined allowed (Places.find tree name (.extension folder schema)) := by simp [Places.find]

@[simp]
theorem confined_fileNames (context : Text) (given : Value) : Confined allowed (fileNames context given) := by
  unfold fileNames
  extract_lets refused
  split
  · simp
  · split <;> simp [refused]
  · simp [refused]

@[simp]
theorem confined_mergeOwn (included : Value) (own : Fields) : Confined allowed (mergeOwn included own) := by
  simp [mergeOwn]

private theorem confined_find {places : Places} (placed : ∀ name, Confined allowed (places.find tree name))
    (name : Text) :
    Confined allowed ((find tree places name).outcome run).1 := by
  simp [find, placed]

@[simp]
theorem confined_mergeIncluded (context : Text) (item included : Fields) :
    Confined allowed ((mergeIncluded context item included).outcome run).1 := by
  unfold mergeIncluded
  extract_lets shifted
  split
  · simp
  · rename_i isProfile merge _ attributes _
    have merged (attributes : Value) (run : Run) : Confined allowed ((merge attributes).outcome run).1 := by
      simp [merge]
    split
    · split <;> simp [merged]
    · simp [merged]

variable {reader : Reader}

private theorem confined_expandAttribute (each : ∀ name context run,
    Confined allowed ((reader name context).outcome run).1)
    (context name : Text) (value : Value) :
    Confined allowed ((expandAttribute reader context name value).outcome run).1 := by
  unfold expandAttribute
  split
  · split
    · simp
    · refine Act.confined_bind_iff.mpr ⟨by simp, fun names after _ => ?_⟩
      refine Act.confined_foldlM fun merged name _ run => ?_
      refine Act.confined_bind_iff.mpr ⟨each name _ run, fun included after _ => ?_⟩
      cases included <;> simp
  · simp

private theorem confined_mergeAll (each : ∀ name context run, Confined allowed ((reader name context).outcome run).1)
    (context : Text) (names : List Text) (item : Fields) :
    Confined allowed ((mergeAll reader context names item).outcome run).1 := by
  refine Act.confined_foldlM fun item name _ run => ?_
  refine Act.confined_bind_iff.mpr ⟨each name context run, fun included after _ => ?_⟩
  cases included <;> simp

private theorem confined_expandWith (each : ∀ name context run, Confined allowed ((reader name context).outcome run).1)
    (context : Text) (item : Fields) : Confined allowed ((expandWith reader context item).outcome run).1 := by
  unfold expandWith
  split
  · rename_i mark attributes found
    extract_lets finish
    have finished (item : Fields) (run : Run) : Confined allowed ((finish item).outcome run).1 := by
      simp [finish, Act.confined_mapM, confined_expandAttribute each]
    split
    · simp [finished]
    · simp [finished, confined_mergeAll each]
  · simp

/-- Included files are read alike at every depth: each one entered leaves fewer to enter. -/
theorem confined_read {places : Places} (placed : ∀ name, Confined allowed (places.find tree name)) (stack : List Path)
    (name context : Text) (run : Run) :
    Confined allowed ((read tree places stack name context).outcome run).1 := by
  rw [Include.read]
  refine Act.confined_attempt_bind (confined_find placed name) fun outcome after own => ?_
  cases outcome with
  | error fault => simpa using fun _ => Confined.error_iff.mp own
  | ok found =>
      obtain ⟨path, fragment⟩ := found
      dsimp only
      split
      · simp
      · rename_i fresh
        split
        · rename_i present
          have deeper (name context : Text) (run : Run) := confined_read placed (stack ++ [path]) name context run
          simp [confined_expandWith deeper]
        · simp
termination_by ((candidates tree).filter (· ∉ stack)).length
decreasing_by exact remaining_lt (by assumption) (by assumption)

private theorem confined_expand {places : Places} (placed : ∀ name, Confined allowed (places.find tree name))
    (context : Text) (origin : Option Path) (item : Fields) :
    Confined allowed ((expand tree places context origin item).outcome run).1 := by
  have started (stack : List Path) (run : Run) :
      Confined allowed ((expandWith (read tree places stack) context item).outcome run).1 :=
    confined_expandWith (confined_read placed stack) context item
  cases origin <;> simp [expand_eq, started]

end Include

/-! ### Folders -/

namespace Scan

variable {scan : Scan}

@[simp]
theorem confined_files (scan : Scan) (base : Path) (kind : Text) : Confined allowed (scan.files base kind) := by
  simp [files]

private theorem confined_document (placed : ∀ name, Confined allowed (scan.places.find scan.tree name)) (kind : Text)
    (file : Path) : Confined allowed ((scan.document kind file).outcome run).1 := by
  simp [document_eq_load, Include.confined_expand placed]

@[simp]
theorem confined_add (scan : Scan) (context : Text) (file : Path) (items : Entries Fields) (name : Text)
    (document : Fields) : Confined allowed ((scan.add context file items name document).outcome run).1 := by
  unfold add
  split
  · simp
  · split <;> simp

@[simp]
theorem confined_itemName (kind : Text) (file : Path) (document : Fields) :
    Confined allowed (itemName kind file document) := by
  unfold itemName
  split
  · simp
  · split
    · simp
    · split <;> simp

@[simp]
theorem confined_role (kind : Text) (file : Path) (document : Fields) : Confined allowed (role kind file document) := by
  unfold role
  extract_lets name parent extend start
  clear_value name parent
  have extended (named : Option Text) : Confined allowed (extend named) := by
    unfold extend
    extract_lets chosen
    have ended (extended : Option Text) : Confined allowed (chosen extended) := by
      unfold chosen
      split <;> simp
    split <;> simp [ended]
  have started : Confined allowed (start ()) := by
    unfold start
    split <;> simp [extended]
  simp [started]

theorem confined_items (placed : ∀ name, Confined allowed (scan.places.find scan.tree name)) (base : Path)
    (kind : Text) :
    Confined allowed ((scan.items base kind).outcome run).1 := by
  simp [items, Act.confined_foldlM, confined_document placed]

private theorem confined_patchable (placed : ∀ name, Confined allowed (scan.places.find scan.tree name)) (base : Path)
    (kind : Text) : Confined allowed ((scan.patchable base kind).outcome run).1 := by
  rw [patchable_eq]
  refine Act.confined_bind_iff.mpr ⟨by simp, fun files after _ => ?_⟩
  refine Act.confined_foldlM fun found file _ run => ?_
  refine Act.confined_bind_iff.mpr ⟨confined_document placed kind file, fun document after _ => ?_⟩
  refine Act.confined_bind_iff.mpr ⟨by simp, fun role after _ => ?_⟩
  cases role <;> simp

end Scan

/-! ### Extensions -/

namespace Extension

variable {tree : Tree}

@[simp]
theorem confined_findManifest (folder : Path) : Confined allowed ((findManifest tree folder).outcome run).1 := by
  unfold findManifest
  extract_lets version manifest fallback
  have given : Confined allowed (Fragment.readObject tree version) := Fragment.confined_readObject tree version
  split
  · split
    · simp
    · simp
    · rename_i fault _ failed
      rw [failed] at given
      simpa using Confined.error_iff.mp given
  · simp

@[simp]
theorem confined_read (manifest : Path) (isPlatform : Bool) (schemaVersion : Value) :
    Confined allowed (read tree manifest isPlatform schemaVersion) := by
  unfold read
  refine Confined.bind_iff.mpr ⟨by simp, fun info _ => ?_⟩
  extract_lets field version named
  have chosen (uid : Int) : Confined allowed (named uid) := by
    unfold named
    extract_lets finish
    have finished (name : Text) : Confined allowed (finish name) := by simp [finish]
    split
    · split <;> simp [finished]
    · simp
  split <;> simp [chosen]

private theorem confined_inOrder {actions : List (Text × Act Found)}
    (each : ∀ action ∈ actions, ∀ run, Confined allowed (action.2.outcome run).1) :
    Confined allowed ((inOrder actions).outcome run).1 := by
  refine Act.confined_foldlM fun found action member run => ?_
  have own := each action (List.mem_mergeSort.mp member)
  simp [own]

mutual
private theorem confined_search (path : Path) (node : Node) (run : Run) :
    Confined allowed ((search tree path node).outcome run).1 := by
  cases node with
  | file content =>
      rw [search]
      simp
  | folder entries =>
      rw [search]
      refine Act.confined_bind_iff.mpr ⟨by simp, fun manifest after _ => ?_⟩
      cases manifest with
      | some manifest => simp
      | none => exact confined_inOrder (confined_searchEntries path entries)
private theorem confined_searchEntries (path : Path) (entries : List (Text × Node)) :
    ∀ action ∈ searchEntries tree path entries, ∀ run, Confined allowed (action.2.outcome run).1 := by
  cases entries with
  | nil =>
      rw [searchEntries]
      exact fun action impossible => by cases impossible
  | cons head rest =>
      obtain ⟨name, node⟩ := head
      cases node with
      | file content =>
          rw [searchEntries]
          exact confined_searchEntries path rest
      | folder inner =>
          rw [searchEntries]
          exact List.forall_mem_cons.mpr
            ⟨fun run => confined_search _ (.folder inner) run, confined_searchEntries path rest⟩
end

@[simp]
theorem confined_locateAt (home path : Path) : Confined allowed ((locateAt tree home path).outcome run).1 := by
  unfold locateAt
  refine Act.confined_bind_iff.mpr ⟨by simp, fun candidate after _ => ?_⟩
  extract_lets rest
  have found (direct : Option Path) (run : Run) : Confined allowed ((rest direct).outcome run).1 := by
    unfold rest
    split
    · simp
    · exact confined_search _ _ run
    · simp
  simp [found]

@[simp]
theorem confined_locate (home : Path) (paths : List Path) (isPlatform : Bool) (schemaVersion : Value) :
    Confined allowed ((locate tree home paths isPlatform schemaVersion).outcome run).1 := by
  simp [locate, Act.confined_foldlM, Act.confined_mapM]

theorem collision_of_validate {extensions : List Extension} {fault : Fault}
    (ran : validate extensions = .error fault) :
    ∃ cause, fault = .integrity cause ∧ cause.isCollision = true := by
  unfold validate at ran
  generalize ([] : List Extension) = before at ran
  induction extensions generalizing before with
  | nil => cases ran
  | cons head rest ih =>
      rw [validateAfter] at ran
      cases collides : collision? before head with
      | none =>
          rw [collides] at ran
          exact ih _ ran
      | some cause =>
          rw [collides] at ran
          refine ⟨cause, (Except.error.inj ran).symm, ?_⟩
          unfold collision? at collides
          split at collides
          · cases collides
            rfl
          · split at collides
            · cases collides
              rfl
            · cases collides

theorem confined_validate (extensions : List Extension) :
    Confined (fun fault => ∃ cause, fault = .integrity cause) (validate extensions) := by
  intro fault ended _
  obtain ⟨cause, same, _⟩ := collision_of_validate ended
  exact ⟨cause, same⟩

end Extension

/-! ### Contributions -/

namespace Contribution

@[simp]
theorem confined_optionalDocument (tree : Tree) (file : Path) :
    Confined allowed ((optionalDocument tree file).outcome run).1 := by simp [optionalDocument]

@[simp]
theorem confined_read (tree : Tree) (schema : Path) (policy : DuplicatePolicy) (e : Extension) :
    Confined allowed ((read tree schema policy e).outcome run).1 := by
  simp [read, Scan.confined_patchable, Scan.confined_items]

@[simp]
theorem confined_stamp (extension : Extension) (value : Value) : Confined allowed (stamp extension value) := by
  cases value <;> simp [stamp]

@[simp]
theorem confined_stampSection (extension : Extension) (value : Value) :
    Confined allowed (stampSection extension value) := by
  simp [stampSection, Confined.mapM]

@[simp]
theorem confined_profileReference (c : Contribution) (profile : Value) :
    Confined allowed (c.profileReference profile) := by simp [profileReference]

@[simp]
theorem confined_writeOutAttribute (c : Contribution) (value : Value) :
    Confined allowed (c.writeOutAttribute value) := by
  unfold writeOutAttribute
  split
  · split <;> simp
  · simp

@[simp]
theorem confined_writeOut (c : Contribution) (items : Entries Fields) : Confined allowed (c.writeOut items) := by
  refine Confined.mapM fun entry _ => ?_
  refine Confined.bind_iff.mpr ⟨?_, fun _ _ => by simp⟩
  unfold writeOutItem
  extract_lets attributes
  have written (item : Fields) : Confined allowed (attributes item) := by
    unfold attributes
    split
    · simp [Confined.mapM]
    · simp
  split
  · simp [Confined.mapM, written]
  · simp [written]

@[simp]
theorem confined_withScopedProfiles (c : Contribution) : Confined allowed (c.withScopedProfiles.outcome run).1 := by
  simp [withScopedProfiles]

@[simp]
theorem confined_requirementRank (requirement : Value) : Confined allowed (requirementRank requirement) := by
  simp [requirementRank]

@[simp]
theorem confined_keeps (key : Text) (fault : Value → Value → DefinitionFault) (new : Fields) (base : Value) :
    Confined allowed (keeps key fault new base) := by
  unfold keeps
  split <;> simp

@[simp]
theorem confined_refinable (context : Text) (new : Fields) (base : Value) :
    Confined allowed (refinable context new base) := by simp [refinable]

@[simp]
theorem confined_contributed (extension : Extension) (name : Text) (new existing : Value) :
    Confined allowed ((contributed extension name new existing).outcome run).1 := by simp [contributed]

@[simp]
theorem confined_mergeAttributes (extension : Extension) (base : Value) (new : List (Text × Value)) (run : Run) :
    Confined allowed ((mergeAttributes extension base new).outcome run).1 := by
  induction base, new using mergeAttributes.induct generalizing run with
  | case1 base =>
      rw [mergeAttributes]
      simp
  | case2 base name value later ih =>
      rw [mergeAttributes]
      simp [ih]

@[simp]
theorem confined_addType (extension : Extension) (base : Value) (name : Text) (new : Value) :
    Confined allowed (addType extension base name new) := by simp [addType]

@[simp]
theorem confined_extendDictionary (c : Contribution) (dictionary : Fields) :
    Confined allowed ((c.extendDictionary dictionary).outcome run).1 := by
  simp [extendDictionary, Act.confined_foldlM]

end Contribution

namespace Patch

@[simp]
theorem confined_addPatcher (patcher : Value) (item : Fields) : Confined allowed (addPatcher patcher item) := by
  unfold addPatcher
  split
  · split
    · simp
    · split <;> simp
  · simp

@[simp]
theorem confined_applyTo (name : Text) (patch item : Fields) : Confined allowed (applyTo name patch item) := by
  unfold applyTo
  refine Confined.bind_iff.mpr ⟨by simp, fun patcher _ => ?_⟩
  extract_lets change
  have changed (item : Fields) : Confined allowed (change item) := by simp [change]
  split
  · simp [changed]
  · simp [changed]

@[simp]
theorem confined_apply (kind : ItemKind) (items : Entries Fields) (name : Text) (patch : Fields) :
    Confined allowed ((apply kind items name patch).outcome run).1 := by
  unfold apply
  refine Act.confined_bind_iff.mpr ⟨by simp, fun patcher after _ => ?_⟩
  extract_lets context
  split
  · simp
  · split <;> simp

@[simp]
theorem confined_applyAll (kind : ItemKind) (items : Entries Fields) (patches : Patches) :
    Confined allowed ((applyAll kind items patches).outcome run).1 :=
  Act.confined_foldlM fun items entry _ run => Act.confined_foldlM fun items patch _ run => by simp

end Patch

end EventSchema
