import EventSchema.Proofs.Include.Copies

/-!
What a compilation reads is fixed by the files.

Expanding directives, scanning folders, finding extensions and reading their content all go through
the cache of the run, and none of it depends on what is there already. So the content of the base
schema and of each extension can be told one by one, whatever else is compiled with it.
-/

set_option autoImplicit false

namespace EventSchema

variable {tree : Tree}

/-! ### Directives -/

namespace Include

theorem fixed_find (places : Places) (name : Text) : (find tree places name).Fixed tree := by
  unfold find
  refine (Act.fixed_lift _).bind fun _ _ => (Act.fixed_lift _).bind fun _ _ => ?_
  exact (Fragment.fixed_load _).bind fun _ _ => Act.fixed_pure _

theorem fixed_mergeIncluded (context : Text) (item included : Fields) :
    (mergeIncluded context item included).Fixed tree := by
  unfold mergeIncluded
  extract_lets shifted
  split
  · exact (Act.fixed_warn rfl).bind fun _ _ => Act.fixed_pure _
  · rename_i isProfile merge _ attributes _
    have mergeFixed (attributes : Value) : (merge attributes).Fixed tree :=
      (Act.fixed_lift _).bind fun _ _ => (Act.fixed_lift _).bind fun _ _ => Act.fixed_pure _
    split
    · split
      · exact (Act.fixed_throw _).bind fun attributes _ => mergeFixed attributes
      · extract_lets name
        exact (Act.fixed_lift _).bind fun _ _ => (Act.fixed_pure _).bind fun attributes _ =>
          mergeFixed attributes
    · exact (Act.fixed_pure _).bind fun attributes _ => mergeFixed attributes

variable {reader : Reader}

theorem fixed_mergeAll (fixed : ∀ name context, (reader name context).Fixed tree) (context : Text)
    (names : List Text) (item : Fields) : (mergeAll reader context names item).Fixed tree := by
  refine Act.fixed_foldlM item fun state name _ => (fixed name context).bind fun included _ => ?_
  cases included with
  | none => exact Act.fixed_pure _
  | some included => exact fixed_mergeIncluded context state included

theorem fixed_mergeUnder (fixed : ∀ name context, (reader name context).Fixed tree) (context : Text)
    (names : List Text) (value : Value) : (mergeUnder reader context names value).Fixed tree := by
  refine Act.fixed_foldlM value fun state name _ => (fixed name context).bind fun included _ => ?_
  cases included with
  | none => exact Act.fixed_pure _
  | some included => exact Act.fixed_pure _

theorem fixed_expandAttribute (fixed : ∀ name context, (reader name context).Fixed tree)
    (context name : Text) (value : Value) : (expandAttribute reader context name value).Fixed tree := by
  unfold expandAttribute
  split
  · split
    · exact Act.fixed_pure _
    · exact (Act.fixed_lift _).bind fun names _ => fixed_mergeUnder fixed _ names _
  · exact Act.fixed_pure _

theorem fixed_expandWith (fixed : ∀ name context, (reader name context).Fixed tree) (context : Text)
    (item : Fields) : (expandWith reader context item).Fixed tree := by
  unfold expandWith
  split
  · rename_i mark attributes found
    extract_lets finish
    have finishFixed (item : Fields) : (finish item).Fixed tree := by
      refine (Act.fixed_lift _).bind fun attributes _ => ?_
      refine (Act.fixed_mapM fun entry _ => ?_).bind fun _ _ => Act.fixed_pure _
      exact (fixed_expandAttribute fixed context entry.1 entry.2).bind fun _ _ => Act.fixed_pure _
    split
    · exact (Act.fixed_pure _).bind fun item _ => finishFixed item
    · refine (Act.fixed_lift _).bind fun names _ => ?_
      exact (fixed_mergeAll fixed _ names _).bind fun item _ => finishFixed item
  · exact Act.fixed_pure _

/-- Included files are read alike at every depth: each one entered leaves fewer to enter. -/
theorem fixed_read (places : Places) (stack : List Path) (name context : Text) :
    (read tree places stack name context).Fixed tree := by
  rw [Include.read]
  refine (fixed_find places name).attempt.bind fun outcome _ => ?_
  cases outcome with
  | error fault =>
      dsimp only
      split
      · exact (Act.fixed_leaveUnresolved _).bind fun _ _ => Act.fixed_pure _
      · exact Act.fixed_throw _
  | ok found =>
      obtain ⟨path, fragment⟩ := found
      dsimp only
      split
      · exact Act.fixed_throw _
      · rename_i fresh
        split
        · rename_i present
          have deeper (name context : Text) := fixed_read places (stack ++ [path]) name context
          refine (Act.fixed_note rfl).bind fun _ _ => ?_
          exact (fixed_expandWith deeper _ fragment).bind fun _ _ => Act.fixed_pure _
        · exact Act.fixed_throw _
termination_by ((candidates tree).filter (· ∉ stack)).length
decreasing_by exact remaining_lt (by assumption) (by assumption)

theorem fixed_expand (places : Places) (context : Text) (origin : Option Path) (item : Fields) :
    (expand tree places context origin item).Fixed tree := by
  rw [expand_eq]
  extract_lets rest
  have restFixed (stack : List Path) : (rest stack).Fixed tree :=
    fixed_expandWith (fixed_read places stack) context item
  cases origin with
  | none => exact (Act.fixed_pure _).bind fun stack _ => restFixed stack
  | some file =>
      exact (Act.fixed_lift _).bind fun _ _ => (Act.fixed_pure _).bind fun stack _ =>
        restFixed stack

theorem fixed_expandIn (places : Places) (context : Text) (origin : Option Path) (item : Fields) :
    (expandIn tree places context origin (.item item)).Fixed tree := by
  rw [expandIn_eq]
  exact (fixed_expand places context origin item).map _

end Include

/-! ### Folders -/

namespace Scan

theorem fixed_document (scan : Scan) (kind : Text) (file : Path) :
    (scan.document kind file).Fixed scan.tree := by
  rw [document_eq_load]
  refine (Fragment.fixed_load file).bind fun fragment _ => ?_
  exact (Include.fixed_expand _ _ _ _).bind fun _ _ => Act.fixed_pure _

theorem fixed_add (scan : Scan) (context : Text) (file : Path) (items : Entries Fields)
    (name : Text) (document : Fields) : (scan.add context file items name document).Fixed tree := by
  unfold add
  extract_lets rest
  have restFixed (done : Unit) : (rest done).Fixed tree := Act.fixed_pure _
  split
  · exact (Act.fixed_pure ()).bind fun done _ => restFixed done
  · extract_lets origin fault
    split
    · exact Act.Fixed.bind (Act.fixed_throw _) fun done _ => restFixed done
    · exact (Act.fixed_warn rfl).bind fun done _ => restFixed done

def addItem (scan : Scan) (kind : Text) (items : Entries Fields) (file : Path) : Act (Entries Fields) := do
  let document ← scan.document kind file
  let name ← itemName kind file document
  scan.add (scan.context ++ " " ++ kind ++ " " ++ name.enclosed) file items name document

theorem fixed_addItem (scan : Scan) (kind : Text) (items : Entries Fields) (file : Path) :
    (scan.addItem kind items file).Fixed scan.tree := by
  refine (fixed_document scan kind file).bind fun document _ => ?_
  exact (Act.fixed_lift _).bind fun name _ => fixed_add scan _ file items name document

theorem items_eq (scan : Scan) (base : Path) (kind : Text) : scan.items base kind =
    (liftM (scan.files base kind) : Act (List Path)) >>= fun files => files.foldlM (scan.addItem kind) [] := rfl

theorem fixed_items (scan : Scan) (base : Path) (kind : Text) : (scan.items base kind).Fixed scan.tree := by
  rw [items_eq]
  exact (Act.fixed_lift _).bind fun files _ =>
    Act.fixed_foldlM [] fun items file _ => fixed_addItem scan kind items file

/-- What a folder of an extension holds with what a file of it defines or patches. -/
def addPatchable (scan : Scan) (kind : Text) (found : Patchable) (file : Path) : Act Patchable := do
  let document ← scan.document kind file
  let place := scan.context ++ " " ++ kind
  match ← role kind file document with
  | .patches name =>
    let patches ← scan.add (place ++ " patch " ++ name.enclosed) file found.patches name document
    return { found with patches }
  | .defines name =>
    let items ← scan.add (place ++ " " ++ name.enclosed) file found.items name document
    return { found with items }

theorem fixed_addPatchable (scan : Scan) (kind : Text) (found : Patchable) (file : Path) :
    (scan.addPatchable kind found file).Fixed scan.tree := by
  refine (fixed_document scan kind file).bind fun document _ => ?_
  refine (Act.fixed_lift _).bind fun role _ => ?_
  cases role with
  | patches name =>
      exact (fixed_add scan _ file found.patches name document).bind fun _ _ => Act.fixed_pure _
  | defines name =>
      exact (fixed_add scan _ file found.items name document).bind fun _ _ => Act.fixed_pure _

theorem patchable_eq (scan : Scan) (base : Path) (kind : Text) : scan.patchable base kind =
    (liftM (scan.files base kind) : Act (List Path)) >>= fun files =>
      files.foldlM (scan.addPatchable kind) { items := [], patches := [] } := rfl

theorem fixed_patchable (scan : Scan) (base : Path) (kind : Text) :
    (scan.patchable base kind).Fixed scan.tree := by
  rw [patchable_eq]
  exact (Act.fixed_lift _).bind fun files _ =>
    Act.fixed_foldlM _ fun found file _ => fixed_addPatchable scan kind found file

end Scan

namespace Contribution

private theorem fixed_optionalDocument (file : Path) : (optionalDocument tree file).Fixed tree := by
  unfold optionalDocument
  split
  · exact Fragment.fixed_load file
  · exact Act.fixed_pure _

theorem fixed_read (schema : Path) (policy : DuplicatePolicy) (e : Extension) :
    (read tree schema policy e).Fixed tree := by
  unfold read
  extract_lets scan
  refine (Act.fixed_note rfl).bind fun _ _ => ?_
  refine (Scan.fixed_patchable scan _ _).bind fun classes _ => ?_
  refine (Scan.fixed_patchable scan _ _).bind fun objects _ => ?_
  refine (fixed_optionalDocument _).bind fun categories _ => ?_
  refine (fixed_optionalDocument _).bind fun dictionary _ => ?_
  exact (Scan.fixed_items scan _ _).bind fun profiles _ => Act.fixed_pure _

def scan (tree : Tree) (schema : Path) (policy : DuplicatePolicy) (e : Extension) : Scan where
  tree := tree
  policy := policy
  places := .extension e.path schema
  context := "extension " ++ e.name.enclosed

/-- What the folder of an extension holds, part by part. -/
theorem read_ok {schema : Path} {policy : DuplicatePolicy} {e : Extension} {c : Contribution}
    (ran : (read tree schema policy e).content = .ok c) :
    ∃ classes objects categories dictionary profiles,
      ((scan tree schema policy e).patchable e.path "events").content = .ok classes ∧
      ((scan tree schema policy e).patchable e.path "objects").content = .ok objects ∧
      (optionalDocument tree (e.path.child "categories.json")).content = .ok categories ∧
      (optionalDocument tree (e.path.child "dictionary.json")).content = .ok dictionary ∧
      ((scan tree schema policy e).items e.path "profiles").content = .ok profiles ∧
      c = {
        extension := e, categories, dictionary, profiles
        classes := classes.items
        classPatches := classes.patches
        objects := objects.items
        objectPatches := objects.patches } := by
  have settles := Act.settles_of_content tree ran
  unfold read at settles
  obtain ⟨_, _, settles⟩ := settles.bind (Act.fixed_note rfl)
  obtain ⟨classes, inClasses, settles⟩ := settles.bind (Scan.fixed_patchable (scan tree schema policy e) _ _)
  obtain ⟨objects, inObjects, settles⟩ := settles.bind (Scan.fixed_patchable (scan tree schema policy e) _ _)
  obtain ⟨categories, inCategories, settles⟩ := settles.bind (fixed_optionalDocument _)
  obtain ⟨dictionary, inDictionary, settles⟩ := settles.bind (fixed_optionalDocument _)
  obtain ⟨profiles, inProfiles, settles⟩ := settles.bind (Scan.fixed_items (scan tree schema policy e) _ _)
  exact ⟨classes, objects, categories, dictionary, profiles, inClasses, inObjects, inCategories,
    inDictionary, inProfiles, (Act.yields_pure.mp settles.yields).symm⟩

end Contribution

/-! ### Extensions -/

namespace Extension

private theorem fixed_findManifest (folder : Path) : (findManifest tree folder).Fixed tree := by
  unfold findManifest
  extract_lets version manifest fallback
  split
  · split
    · exact Act.fixed_pure _
    · exact (Act.fixed_note rfl).bind fun _ _ => Act.fixed_pure _
    · exact Act.fixed_throw _
  · exact Act.fixed_pure _

private theorem fixed_inOrder {actions : List (Text × Act Found)}
    (each : ∀ action ∈ actions, action.2.Fixed tree) : (inOrder actions).Fixed tree := by
  unfold inOrder
  refine Act.fixed_foldlM [] fun found action member => ?_
  exact (each action (List.mem_mergeSort.mp member)).bind fun _ _ => Act.fixed_pure _

mutual
private theorem fixed_search (path : Path) (node : Node) : (search tree path node).Fixed tree := by
  cases node with
  | file content =>
      rw [search]
      exact Act.fixed_pure _
  | folder entries =>
      rw [search]
      refine (fixed_findManifest path).bind fun manifest _ => ?_
      cases manifest with
      | some manifest => exact Act.fixed_pure _
      | none => exact fixed_inOrder (fixed_searchEntries path entries)
private theorem fixed_searchEntries (path : Path) (entries : List (Text × Node)) :
    ∀ action ∈ searchEntries tree path entries, action.2.Fixed tree := by
  cases entries with
  | nil =>
      rw [searchEntries]
      exact fun action impossible => by cases impossible
  | cons head rest =>
      obtain ⟨name, node⟩ := head
      cases node with
      | file content =>
          rw [searchEntries]
          exact fixed_searchEntries path rest
      | folder inner =>
          rw [searchEntries]
          exact List.forall_mem_cons.mpr ⟨fixed_search _ (.folder inner), fixed_searchEntries path rest⟩
end

private theorem fixed_locateAt (home path : Path) : (locateAt tree home path).Fixed tree := by
  unfold locateAt
  refine (Act.fixed_lift _).bind fun candidate _ => ?_
  extract_lets rest
  have restFixed (direct : Option Path) : (rest direct).Fixed tree := by
    unfold rest
    split
    · exact Act.fixed_pure _
    · exact fixed_search _ _
    · exact (Act.fixed_note rfl).bind fun _ _ => Act.fixed_pure _
  split
  · exact (fixed_findManifest _).bind fun direct _ => restFixed direct
  · exact (Act.fixed_pure _).bind fun direct _ => restFixed direct

private theorem fixed_locate (home : Path) (paths : List Path) (isPlatform : Bool) (schemaVersion : Value) :
    (locate tree home paths isPlatform schemaVersion).Fixed tree := by
  unfold locate
  refine Act.Fixed.bind (Act.fixed_foldlM [] fun found path _ => ?_) fun found _ => ?_
  · exact (fixed_locateAt home path).bind fun _ _ => Act.fixed_pure _
  · refine Act.fixed_mapM fun entry _ => (Act.fixed_lift _).bind fun extension _ => ?_
    exact (Act.fixed_note rfl).bind fun _ _ => Act.fixed_pure _

end Extension

/-! ### Compilations -/

namespace Compilation

variable {c : Compilation}

theorem fixed_version (c : Compilation) : c.version.Fixed c.tree := by
  rw [version_eq]
  refine (Fragment.fixed_load _).attempt.bind fun outcome _ => ?_
  split
  · split
    · exact Act.fixed_pure _
    · exact (Act.fixed_warn rfl).bind fun _ _ => Act.fixed_pure _
  · exact (Act.fixed_warn rfl).bind fun _ _ => Act.fixed_pure _
  · exact Act.fixed_throw _

theorem fixed_requiredDocument (c : Compilation) (name : Text) :
    (c.requiredDocument name).Fixed c.tree := by
  unfold requiredDocument
  refine (Fragment.fixed_load _).attempt.bind fun outcome _ => ?_
  split
  · exact Act.fixed_pure _
  · exact Act.fixed_throw _
  · exact Act.fixed_throw _

theorem fixed_locateExtensions (c : Compilation) (version : Value) :
    (c.locateExtensions version).Fixed c.tree := by
  unfold locateExtensions
  extract_lets s rest
  have restFixed (platform : List Extension) : (rest platform).Fixed c.tree := by
    refine (Extension.fixed_locate _ _ _ _).bind fun given _ => ?_
    exact (Act.fixed_lift _).bind fun _ _ => Act.fixed_pure _
  split
  · exact (Extension.fixed_locate _ _ _ _).bind fun platform _ => restFixed platform
  · exact (Act.fixed_pure _).bind fun platform _ => restFixed platform

def baseScan (c : Compilation) : Scan where
  tree := c.tree
  policy := c.settings.duplicates
  places := .schema c.settings.schema
  context := "base schema"

def baseSchema (c : Compilation) : Except Fault Sources := do
  return {
    categories := ← (c.requiredDocument "categories.json").content
    dictionary := ← (c.requiredDocument "dictionary.json").content
    classes := ← (c.baseScan.items c.settings.schema "events").content
    objects := ← (c.baseScan.items c.settings.schema "objects").content
    profiles := ← (c.baseScan.items c.settings.schema "profiles").content }

def contribution (c : Compilation) (e : Extension) : Except Fault Contribution :=
  (Contribution.read c.tree c.settings.schema c.settings.duplicates e).content

private theorem fixed_baseItems (c : Compilation) (kind : Text) :
    (c.baseScan.items c.settings.schema kind).attempt.Fixed c.tree :=
  (Scan.fixed_items c.baseScan _ _).attempt

private theorem fixed_contribution (c : Compilation) (e : Extension) :
    (Contribution.read c.tree c.settings.schema c.settings.duplicates e).attempt.Fixed c.tree :=
  (Contribution.fixed_read _ _ e).attempt

theorem fixed_readAll (c : Compilation) (categories dictionary : Fields)
    (extensions : List Extension) : (c.readAll categories dictionary extensions).Fixed c.tree := by
  unfold readAll
  extract_lets s scan
  refine (c.fixed_baseItems "events").bind fun classes _ => ?_
  refine (c.fixed_baseItems "objects").bind fun objects _ => ?_
  refine (c.fixed_baseItems "profiles").bind fun profiles _ => ?_
  refine (Act.fixed_mapM fun e _ => c.fixed_contribution e).bind fun _ _ => ?_
  refine (Act.fixed_lift _).bind fun _ _ => (Act.fixed_lift _).bind fun _ _ => ?_
  refine (Act.fixed_lift _).bind fun _ _ => (Act.fixed_lift _).bind fun _ _ => ?_
  exact Act.fixed_pure _

theorem readAll_ok {categories dictionary : Fields} {extensions : List Extension} {base : Sources}
    {contributions : List Contribution}
    (ran : (c.readAll categories dictionary extensions).content = .ok (base, contributions)) :
    (∃ classes objects profiles,
      (c.baseScan.items c.settings.schema "events").content = .ok classes ∧
      (c.baseScan.items c.settings.schema "objects").content = .ok objects ∧
      (c.baseScan.items c.settings.schema "profiles").content = .ok profiles ∧
      base = { categories, dictionary, classes, objects, profiles }) ∧
      extensions.mapM c.contribution = .ok contributions := by
  have settles := Act.settles_of_content c.tree ran
  unfold readAll at settles
  obtain ⟨classes, inClasses, settles⟩ := settles.bind (c.fixed_baseItems "events")
  obtain ⟨objects, inObjects, settles⟩ := settles.bind (c.fixed_baseItems "objects")
  obtain ⟨profiles, inProfiles, settles⟩ := settles.bind (c.fixed_baseItems "profiles")
  obtain ⟨outcomes, attempted, settles⟩ :=
    settles.bind (Act.fixed_mapM fun e _ => c.fixed_contribution e)
  obtain ⟨classes', readClasses, settles⟩ := settles.bind (Act.fixed_lift _)
  obtain ⟨objects', readObjects, settles⟩ := settles.bind (Act.fixed_lift _)
  obtain ⟨profiles', readProfiles, settles⟩ := settles.bind (Act.fixed_lift _)
  obtain ⟨contributions', readContributions, settles⟩ := settles.bind (Act.fixed_lift _)
  have same := Act.yields_pure.mp settles.yields
  rw [Prod.mk.injEq] at same
  rw [Act.content_lift] at readClasses readObjects readProfiles readContributions
  rw [Act.content_attempt, Except.ok.injEq] at inClasses inObjects inProfiles
  rw [Act.content_mapM fun e _ => c.fixed_contribution e] at attempted
  have outcomesAre : outcomes = extensions.map c.contribution := by
    have told : extensions.mapM (fun e => pure (c.contribution e)) = Except.ok outcomes := attempted
    rw [List.mapM_pure, pure_eq_ok] at told
    exact told.symm
  rw [outcomesAre, List.mapM_map] at readContributions
  refine ⟨⟨classes', objects', profiles', inClasses.trans readClasses,
    inObjects.trans readObjects, inProfiles.trans readProfiles, same.1.symm⟩, ?_⟩
  exact same.2 ▸ readContributions

end Compilation

end EventSchema
