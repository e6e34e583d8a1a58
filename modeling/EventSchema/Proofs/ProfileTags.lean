import Mathlib.Data.List.Permutation
import EventSchema.Proofs.Contribution.Tags
import EventSchema.Proofs.Graph.Told
import EventSchema.Proofs.Homes
import EventSchema.Proofs.Include.Profiled

/-!
The profile that an included attribute is of.

An attribute that a class or an object includes from the file of a profile is tagged with the plain name of
the profile. What an extension says is written out later, by the name alone: it means the extension's own
profile of that name, if there is one. So the finished attribute is of the profile that it was included from
just when the plain name means that profile where the definition is at home.
-/

set_option autoImplicit false

namespace EventSchema

open Value

namespace Entries

variable {α β : Type}

private theorem mapValues_put (f : α → β) (key : Text) (value : α) (entries : Entries α) :
    mapValues f (put key value entries) = put key (f value) (mapValues f entries) := by
  induction entries with
  | nil => rfl
  | cons head rest ih =>
      obtain ⟨known, old⟩ := head
      rw [put]
      change mapValues f _ = put key (f value) ((known, f old) :: mapValues f rest)
      rw [put]
      split
      · rfl
      · exact congrArg ((known, f old) :: ·) ih

private theorem mapValues_ofList (f : α → β) (pairs : List (Text × α)) :
    mapValues f (ofList pairs) = ofList (pairs.map fun pair => (pair.1, f pair.2)) := by
  have written (entries : Entries α) : mapValues f (pairs.foldl (fun entries pair => put pair.1 pair.2 entries)
      entries) = (pairs.map fun pair => (pair.1, f pair.2)).foldl (fun entries pair => put pair.1 pair.2 entries)
        (mapValues f entries) := by
    induction pairs generalizing entries with
    | nil => rfl
    | cons pair rest ih => exact (ih _).trans (by rw [mapValues_put]; rfl)
  exact written []

private theorem has_ofList {pairs : List (Text × α)} {key : Text} :
    has key (ofList pairs) = true ↔ key ∈ keys pairs := by
  have written (entries : Entries α) : has key (pairs.foldl (fun entries pair => put pair.1 pair.2 entries)
      entries) = true ↔ has key entries = true ∨ key ∈ keys pairs := by
    induction pairs generalizing entries with
    | nil => exact (or_iff_left List.not_mem_nil).symm
    | cons pair rest ih =>
        have first : has key (put pair.1 pair.2 entries) = true ↔ has key entries = true ∨ key = pair.1 := by
          rw [has, get?_put]
          by_cases here : key = pair.1
          · simp [here]
          · simp [here, has]
        have listed : key ∈ keys (pair :: rest) ↔ key = pair.1 ∨ key ∈ keys rest := List.mem_cons
        rw [List.foldl_cons, ih, first, listed, or_assoc]
  exact (written []).trans (or_iff_right Bool.false_ne_true)

end Entries

private theorem Scan.get?_name_of_itemName {kind : Text} {file : Path} {document : Fields} {name : Text}
    (ran : itemName kind file document = .ok name) : Entries.get? "name" document = some (.text name) := by
  unfold itemName at ran
  split at ran
  · cases ran
  · rename_i found
    split at ran
    · cases ran
    · split at ran
      · rw [found, Except.ok.inj ran]
      · cases ran

/-! ### The definitions that are merged -/

/-- Definitions under their keys, a later one in place of an earlier one. -/
def ScannedItem.byKey (items : List ScannedItem) : Entries ScannedItem :=
  Entries.ofList (items.map fun item => (item.key, item))

private theorem ScannedItem.kept_of_nodup {items : List ScannedItem} (distinct : (items.map ScannedItem.key).Nodup)
    {item : ScannedItem} (member : item ∈ items) : Entries.get? item.key (byKey items) = some item := by
  have keys : (items.map fun item => (item.key, item)).map Prod.fst = items.map ScannedItem.key := List.map_map
  have kept := Entries.foldl_put_of_nodup ([] : Entries ScannedItem) (keys.symm ▸ distinct)
  rw [byKey, Entries.ofList, kept]
  exact Entries.get?_of_mem (keys.symm ▸ distinct : (List.map Prod.fst _).Nodup) (List.mem_map.mpr ⟨item, member, rfl⟩)

namespace Compilation

variable {c : Compilation} {kind : ItemKind}

/-- The fields of a class or an object as they are merged: those of an extension are stamped and written
out. -/
def Merges (c : Compilation) (item : ScannedItem) (fields : Fields) : Prop :=
  match item.home with
  | none => fields = item.document
  | some e => ∃ contribution stamped, c.contribution e = .ok contribution ∧ contribution.stamped = .ok stamped ∧
      Contribution.writeOutItem stamped (Contribution.stampFields e item.document) = .ok fields

private theorem merges_base {items : List ScannedItem} (homes : ∀ item ∈ items, item.home = none) :
    Entries.Related (fun _ => c.Merges) (ScannedItem.byKey items)
      (Entries.ofList (items.map ScannedItem.named)) := by
  have shape : Entries.ofList (items.map ScannedItem.named) =
      Entries.mapValues ScannedItem.document (ScannedItem.byKey items) := by
    rw [ScannedItem.byKey, Entries.mapValues_ofList, List.map_map]
    refine congrArg Entries.ofList (List.map_congr_left fun item member => ?_)
    have home := homes item member
    change (item.name, item.document) = (item.key, item.document)
    rw [ScannedItem.key, home]
  rw [shape]
  refine Entries.related_mapValues fun entry member => ?_
  obtain ⟨item, among, rfl⟩ := List.mem_map.mp (Entries.mem_of_mem_ofList member)
  unfold Merges
  rw [homes item among]

private theorem merges_contribution (patchable : kind ≠ .profile) {e : Extension} {contribution prepared : Contribution}
    (read : c.contribution e = .ok contribution) (prepares : (prepare contribution).Yields prepared)
    {items : List ScannedItem} {strict : Prop} (homes : ∀ item ∈ items, item.home = some e)
    (keeps : Scan.Keeps strict items (contribution.items kind)) :
    Entries.Related (fun _ => c.Merges) (Entries.ofList (items.map fun item => (item.name, item)))
      (prepared.items kind) := by
  obtain ⟨stamped, classes, _, objects, _, stamps, one, _, three, _, rfl⟩ := Contribution.prepare_ok prepares
  have extension := extension_contribution read
  have shape : Entries.mapValues (Contribution.stampFields e) (contribution.items kind) =
      Entries.mapValues (fun item => Contribution.stampFields e item.document)
        (Entries.ofList (items.map fun item => (item.name, item))) := by
    rw [keeps.kept, Entries.mapValues_ofList, Entries.mapValues_ofList, List.map_map, List.map_map]
    rfl
  have written {owner : Contribution} (owned : contribution.stamped = .ok owner) {results : Entries Fields}
      (ran : Contribution.writeOut owner
        (Entries.mapValues (Contribution.stampFields contribution.extension) (contribution.items kind)) =
          .ok results) :
      Entries.Related (fun _ => c.Merges) (Entries.ofList (items.map fun item => (item.name, item))) results := by
    rw [extension, shape] at ran
    have each := List.forall₂_map_left_iff.mp (Entries.mapM_eq_ok.mp ran)
    have own : ∀ entry ∈ Entries.ofList (items.map fun item => (item.name, item)), entry.2.home = some e := by
      intro entry member
      obtain ⟨item, among, rfl⟩ := List.mem_map.mp (Entries.mem_of_mem_ofList member)
      exact homes item among
    refine ((List.forall₂_and_left _ _).mpr ⟨own, each⟩).imp fun entry result ⟨home, same, step⟩ => ⟨same, ?_⟩
    change c.Merges entry.2 result.2
    unfold Merges
    rw [home]
    exact ⟨contribution, owner, read, owned, step⟩
  obtain ⟨_, _, _, _, _, _, _, _, _, _, same⟩ := Contribution.stamped_ok stamps
  have inClasses : stamped.classes =
      Entries.mapValues (Contribution.stampFields contribution.extension) contribution.classes := by rw [same]
  have inObjects : stamped.objects =
      Entries.mapValues (Contribution.stampFields contribution.extension) contribution.objects := by rw [same]
  rw [inClasses] at one
  rw [inObjects] at three
  cases kind with
  | eventClass => exact written stamps one
  | object => exact written stamps three
  | profile => exact absurd rfl patchable

private theorem addScoped_byKey {e : Extension} {items : List ScannedItem} (homes : ∀ item ∈ items, item.home = some e)
    (before : List ScannedItem) :
    addScoped e (ScannedItem.byKey before) (Entries.ofList (items.map fun item => (item.name, item))) =
      ScannedItem.byKey (before ++ items) := by
  have written : Entries.putAll (Scope.within e.name) id (ScannedItem.byKey before)
      (Entries.ofList (items.map fun item => (item.name, item))) =
        Entries.putAll (Scope.within e.name) id (ScannedItem.byKey before)
          (items.map fun item => (item.name, item)) :=
    Entries.putAll_ofList (fun _ _ => Scope.within_right_inj) _ _
  refine written.trans ?_
  unfold ScannedItem.byKey Entries.putAll
  rw [List.map_append, Entries.ofList_append, List.foldl_map, List.foldl_map]
  refine List.foldl_ext _ _ _ fun entries item member => ?_
  have home := homes item member
  dsimp only
  rw [ScannedItem.key, home]
  rfl

private theorem merges_all (patchable : kind ≠ .profile) {extensions : List Extension}
    {contributions prepared : List Contribution}
    (contributing : List.Forall₂ (fun e contribution => c.contribution e = .ok contribution) extensions
      contributions)
    (ready : List.Forall₂ (fun c p => (prepare c).Yields p) contributions prepared)
    {before : List ScannedItem} {s sources : Sources}
    (start : Entries.Related (fun _ => c.Merges) (ScannedItem.byKey before) (s.items kind))
    (merging : (prepared.foldlM Sources.add s).Yields sources) :
    ∃ given, extensions.mapM (c.scannedOf kind) = .ok given ∧
      Entries.Related (fun _ => c.Merges) (ScannedItem.byKey (before ++ given.flatten)) (sources.items kind) := by
  induction contributing generalizing prepared before s with
  | nil =>
      rw [List.forall₂_nil_left_iff.mp ready] at merging
      cases Act.yields_pure.mp merging
      exact ⟨[], rfl, (List.append_nil before).symm ▸ start⟩
  | @cons e contribution extensions contributions read _ ih =>
      obtain ⟨first, later, prepares, others, rfl⟩ := List.forall₂_cons_left_iff.mp ready
      rw [List.foldlM_cons] at merging
      obtain ⟨middle, adding, merging⟩ := Act.yields_bind merging
      obtain ⟨items, scanned, keeps⟩ := scanned_contribution read kind
      have homes : ∀ item ∈ items, item.home = some e := fun item member =>
        (Scan.home_of_scanned scanned member).1
      have added : Entries.Related (fun _ => c.Merges) (ScannedItem.byKey (before ++ items))
          (middle.items kind) := by
        rw [items_add adding kind, Contribution.extension_prepare prepares, extension_contribution read,
          ← addScoped_byKey homes before]
        exact related_addScoped (fun _ _ _ _ held => held) start
          (merges_contribution patchable read prepares homes keeps)
      obtain ⟨given, scannedRest, related⟩ := ih others added merging
      refine ⟨items :: given, ?_, ?_⟩
      · rw [List.mapM_cons, scanned, ok_bind, scannedRest]
        rfl
      · rw [List.flatten_cons, ← List.append_assoc]
        exact related

theorem Steps.merges {graph : Graph} (steps : Steps c graph) (patchable : kind ≠ .profile) :
    ∃ scanned, c.scanned kind = .ok scanned ∧
      Entries.Related (fun _ => c.Merges) (ScannedItem.byKey scanned) (steps.sources.items kind) := by
  obtain ⟨own, ownScanned, keeps⟩ := scanned_baseSchema steps.reading kind
  have start := merges_base (c := c) fun item member => (Scan.home_of_scanned ownScanned member).1
  rw [← keeps.kept] at start
  obtain ⟨given, givenScanned, related⟩ := merges_all patchable (mapM_eq_ok.mp steps.contributing)
    (Act.yields_mapM steps.preparing) start steps.merging
  refine ⟨own ++ given.flatten, ?_, related⟩
  unfold Compilation.scanned
  rw [ownScanned, ok_bind, steps.found_eq, ok_bind, givenScanned]
  rfl

/-! ### What the files of the definitions say -/

def placesOf (c : Compilation) : Option Extension → Places
  | none => .schema c.settings.schema
  | some e => .extension e.path c.settings.schema

private theorem scan_of_scanned {items : List ScannedItem} (ran : c.scanned kind = .ok items) {item : ScannedItem}
    (member : item ∈ items) : ∃ (scan : Scan) (base : Path) (found : List ScannedItem),
      scan.tree = c.tree ∧ scan.places = c.placesOf item.home ∧
      scan.scanned base kind item.home = .ok found ∧ item ∈ found := by
  obtain ⟨own, ownScanned, ran⟩ := bind_eq_ok.mp ran
  obtain ⟨extensions, _, ran⟩ := bind_eq_ok.mp ran
  obtain ⟨given, givenScanned, ran⟩ := bind_eq_ok.mp ran
  rw [← pure_eq_ok.mp ran] at member
  rcases List.mem_append.mp member with base | other
  · have home := (Scan.home_of_scanned ownScanned base).1
    rw [home]
    exact ⟨_, _, _, rfl, rfl, ownScanned, base⟩
  · obtain ⟨items, held, inside⟩ := List.mem_flatten.mp other
    obtain ⟨e, _, scanned⟩ := exists_left_of_mem (mapM_eq_ok.mp givenScanned) held
    have home := (Scan.home_of_scanned scanned inside).1
    rw [home]
    exact ⟨_, _, _, rfl, rfl, scanned, inside⟩

private theorem expands_of_scanned {items : List ScannedItem} (ran : c.scanned kind = .ok items) {item : ScannedItem}
    (member : item ∈ items) : ∃ fragment context expanded, (Fragment.load c.tree item.file).content = .ok fragment ∧
      (Include.expandWith (Include.read c.tree (c.placesOf item.home) [c.tree.resolve item.file]) context
        fragment).content = .ok expanded ∧
      item.document = Entries.put "_origin" (.text item.file.text) expanded := by
  obtain ⟨scan, base, found, tree, places, scanned, inside⟩ := scan_of_scanned ran member
  obtain ⟨files, _, scanned⟩ := bind_eq_ok.mp scanned
  obtain ⟨file, _, defines⟩ := exists_of_filterMapM scanned inside
  obtain ⟨document, reads, defines⟩ := bind_eq_ok.mp defines
  obtain ⟨named, _, defines⟩ := bind_eq_ok.mp defines
  obtain ⟨name, _, shape⟩ := Option.map_eq_some_iff.mp (pure_eq_ok.mp defines)
  have sameFile : item.file = file := shape ▸ rfl
  have sameDocument : item.document = document := shape ▸ rfl
  have settles := Act.settles_of_content scan.tree reads
  rw [Scan.document_eq_load] at settles
  obtain ⟨fragment, loads, settles⟩ := settles.bind (Fragment.fixed_load file)
  obtain ⟨expanded, expands, settles⟩ := settles.bind (Include.fixed_expand _ _ _ _)
  rw [Include.content_expand] at expands
  obtain ⟨stack, outermost, expands⟩ := bind_eq_ok.mp expands
  obtain ⟨path, resolves, outermost⟩ := bind_eq_ok.mp outermost
  rw [← pure_eq_ok.mp outermost, Tree.resolveNamed_ok resolves, tree, places] at expands
  rw [tree] at loads
  rw [sameDocument, ← Act.yields_pure.mp settles.yields, sameFile]
  exact ⟨fragment, _, expanded, loads, expands, rfl⟩

private theorem name_of_profile {items : List ScannedItem} (ran : c.scanned .profile = .ok items) {item : ScannedItem}
    (member : item ∈ items) : Entries.get? "name" item.document = some (.text item.name) ∧
      (Value.text item.name).truthy = true := by
  obtain ⟨scan, base, found, _, _, scanned, inside⟩ := scan_of_scanned ran member
  obtain ⟨files, _, scanned⟩ := bind_eq_ok.mp scanned
  obtain ⟨file, _, defines⟩ := exists_of_filterMapM scanned inside
  obtain ⟨document, reads, defines⟩ := bind_eq_ok.mp defines
  obtain ⟨named, naming, defines⟩ := bind_eq_ok.mp defines
  obtain ⟨name, shape, same⟩ := Option.map_eq_some_iff.mp (pure_eq_ok.mp defines)
  unfold Scan.definedName at naming
  rw [if_neg (fun both => both.2 rfl)] at naming
  obtain ⟨given, naming, ended⟩ := bind_eq_ok.mp naming
  have sameName : given = item.name := by
    rw [← same]
    exact Option.some.inj ((pure_eq_ok.mp ended).trans shape)
  have sameDocument : document = item.document := same ▸ rfl
  rw [sameName, sameDocument] at naming
  exact ⟨Scan.get?_name_of_itemName naming, Scan.truthy_of_itemName naming⟩

/-- A definition takes an attribute from the file of a profile, and nothing else says of which profile the
attribute is. -/
structure TakesFrom (c : Compilation) (item profile : ScannedItem) (name file : Text) (fragment included : Fields) :
    Prop where
  loads : (Fragment.load c.tree item.file).content = .ok fragment
  takes : Include.Takes c.tree (c.placesOf item.home) [c.tree.resolve item.file] fragment name file included
  sort : Entries.get? "meta" included = some (.text "profile")
  leads : ((c.placesOf item.home).find c.tree file).map c.tree.resolve = .ok (c.tree.resolve profile.file)

private theorem load_unique {tree : Tree} {file other : Path} {fragment fragment' : Fields}
    (same : tree.resolve file = tree.resolve other) (loads : (Fragment.load tree file).content = .ok fragment)
    (loads' : (Fragment.load tree other).content = .ok fragment') : fragment = fragment' := by
  rw [Fragment.content_load] at loads loads'
  obtain ⟨path, resolves, loads⟩ := bind_eq_ok.mp loads
  obtain ⟨path', resolves', loads'⟩ := bind_eq_ok.mp loads'
  rw [Tree.resolveNamed_ok resolves, same, ← Tree.resolveNamed_ok resolves'] at loads
  exact Except.ok.inj (loads.symm.trans loads')

variable {item profile : ScannedItem} {name file : Text} {fragment included : Fields}

theorem TakesFrom.isProfile {profiles : List ScannedItem} (taken : c.TakesFrom item profile name file fragment included)
    (all : c.scanned .profile = .ok profiles) (known : profile ∈ profiles) :
    Include.IsProfile profile.name included := by
  refine ⟨taken.sort, ?_⟩
  obtain ⟨_, ran⟩ := taken.takes.gives
  obtain ⟨path, content, _, _, found, inside⟩ := Include.read_ok ran
  rw [Include.content_find] at found
  obtain ⟨named, finds, found⟩ := bind_eq_ok.mp found
  obtain ⟨resolved, resolves, found⟩ := bind_eq_ok.mp found
  obtain ⟨loaded, loads, found⟩ := bind_eq_ok.mp found
  cases pure_eq_ok.mp found
  have leads := taken.leads
  rw [finds] at leads
  obtain ⟨own, _, expanded, loads', expands, document⟩ := expands_of_scanned all known
  have same : c.tree.resolve path = c.tree.resolve profile.file := by
    rw [Tree.resolveNamed_ok resolves, Tree.resolve_resolve]
    exact Except.ok.inj leads
  cases load_unique same loads loads'
  have told := (name_of_profile all known).1
  rw [document, Entries.get?_put_of_ne (by decide),
    Include.expandWith_frame (Include.fixed_read _ _) (by decide) expands] at told
  rw [Include.expandWith_frame (Include.fixed_read _ _) (by decide) inside]
  exact told

theorem TakesFrom.toldAt {items profiles : List ScannedItem}
    (taken : c.TakesFrom item profile name file fragment included) (all : c.scanned kind = .ok items)
    (member : item ∈ items) (allProfiles : c.scanned .profile = .ok profiles) (known : profile ∈ profiles) :
    ToldAt name "profile" (some (.text profile.name)) (Entries.attributes item.document) := by
  obtain ⟨own, _, expanded, loads, expands, document⟩ := expands_of_scanned all member
  cases load_unique rfl loads taken.loads
  rw [document, Entries.attributes_put_of_ne (by decide)]
  exact Include.expandWith_takes (Fragment.document_load loads) taken.takes (taken.isProfile allProfiles known) expands

/-! ### Merged and patched -/

def Stands (c : Compilation) (home : Option Extension) (name tag : Text) : Prop :=
  match home with
  | none => tag = name
  | some e => ∃ contribution, c.contribution e = .ok contribution ∧ tag = contribution.meant name

private theorem meant_stamped {contribution stamped : Contribution} (stamps : contribution.stamped = .ok stamped)
    (name : Text) : stamped.meant name = contribution.meant name := by
  obtain ⟨_, _, _, _, _, _, _, _, _, _, rfl⟩ := Contribution.stamped_ok stamps
  unfold Contribution.meant Entries.has
  rw [Entries.get?_mapValues, Option.isSome_map]

theorem Merges.toldAt {fields : Fields} {name given : Text} (merges : c.Merges item fields)
    (named : (Value.text given).truthy = true)
    (tells : ToldAt name "profile" (some (.text given)) (Entries.attributes item.document)) :
    ∃ tag, c.Stands item.home given tag ∧ ToldAt name "profile" (some (.text tag)) (Entries.attributes fields) := by
  unfold Merges at merges
  unfold Stands
  cases home : item.home with
  | none =>
      rw [home] at merges
      exact ⟨given, rfl, merges.symm ▸ tells⟩
  | some e =>
      rw [home] at merges
      obtain ⟨contribution, stamped, read, stamps, written⟩ := merges
      refine ⟨_, ⟨contribution, read, meant_stamped stamps given⟩, ?_⟩
      rw [← Contribution.attributes_stampFields e] at tells
      exact Contribution.toldAt_writeOutItem named tells written

def Sources.patches (s : Sources) : ItemKind → Patches
  | .eventClass => s.classPatches
  | .object => s.objectPatches
  | .profile => []

/-- No patch of an item says of which profile an attribute is. -/
def Unpatched (c : Compilation) (kind : ItemKind) (key name : Text) : Prop :=
  ∀ extensions, c.found = .ok extensions → ∀ e ∈ extensions, ∀ contribution, c.contribution e = .ok contribution →
    ∀ patch, (key, patch) ∈ contribution.patches kind → Value.OpenAt name "profile" (Entries.attributes patch)

private theorem patches_add {s added : Sources} {c : Contribution} (ran : (s.add c).Yields added) (kind : ItemKind) :
    added.patches kind = addPatches (s.patches kind) (c.patches kind) := by
  obtain ⟨_, _, _, _, rfl⟩ := Sources.add_ok ran
  cases kind <;> rfl

private theorem document_patches {contribution : Contribution} (keyed : contribution.Keyed) (kind : ItemKind) :
    DocumentEach (contribution.patches kind) := by
  cases kind with
  | eventClass => exact keyed.classPatches
  | object => exact keyed.objectPatches
  | profile => exact .nil

private theorem Steps.silent_patches {graph : Graph} (steps : Steps c graph) {key name : Text}
    (unpatched : c.Unpatched kind key name) : ∀ entry ∈ steps.sources.patches kind, ∀ patch ∈ entry.2,
      entry.1 = key → SilentAt name "profile" (Entries.attributes patch) := by
  let Holds (s : Sources) : Prop := ∀ entry ∈ s.patches kind, ∀ patch ∈ entry.2,
    entry.1 = key → SilentAt name "profile" (Entries.attributes patch)
  refine Act.foldlM_keeps (motive := Holds) steps.merging ?_ fun s prepared next member holds step => ?_
  · obtain ⟨_, _, reading⟩ := bind_eq_ok.mp steps.reading
    obtain ⟨_, _, reading⟩ := bind_eq_ok.mp reading
    obtain ⟨_, _, reading⟩ := bind_eq_ok.mp reading
    obtain ⟨_, _, reading⟩ := bind_eq_ok.mp reading
    obtain ⟨_, _, reading⟩ := bind_eq_ok.mp reading
    rw [← pure_eq_ok.mp reading]
    cases kind <;> exact List.forall_mem_nil _
  · obtain ⟨e, listed, contribution, read, prepares⟩ := exists_left_of_mem steps.prepares member
    have documents := document_patches (Contribution.keyed_read read) kind
    change ∀ entry ∈ next.patches kind, _
    rw [patches_add step]
    refine Patch.each_addPatches
      (fun own patch => own = key → SilentAt name "profile" (Entries.attributes patch)) holds ?_
    rintro ⟨_, patch⟩ among rfl
    refine Contribution.silentAt_prepare prepares (fun patch inside => ?_) among
    exact (unpatched _ steps.found_eq e listed contribution read patch inside).silent
      (documents.each _ inside).single

theorem Steps.patching {graph : Graph} (steps : Steps c graph) (patchable : kind ≠ .profile) :
    ∃ patched, (Patch.applyAll kind (steps.sources.items kind) (steps.sources.patches kind)).Yields patched ∧
      steps.definitions.items kind = .record (Entries.mapValues Value.record patched) := by
  obtain ⟨classes, objects, inClasses, inObjects, same⟩ := Sources.definitions_ok steps.defining
  rw [same]
  cases kind with
  | eventClass => exact ⟨classes, inClasses, rfl⟩
  | object => exact ⟨objects, inObjects, rfl⟩
  | profile => exact absurd rfl patchable

private theorem documentPatches_sources {s : Sources} (keyed : s.Keyed) (kind : ItemKind) :
    Patch.DocumentPatches (s.patches kind) := by
  cases kind with
  | eventClass => exact keyed.classPatches
  | object => exact keyed.objectPatches
  | profile => exact List.forall_mem_nil _

theorem Steps.toldAt {graph : Graph} (steps : Steps c graph) (patchable : kind ≠ .profile)
    {items profiles : List ScannedItem} (all : c.scanned kind = .ok items)
    (kept : Entries.get? item.key (ScannedItem.byKey items) = some item)
    (allProfiles : c.scanned .profile = .ok profiles) (known : profile ∈ profiles)
    (taken : c.TakesFrom item profile name file fragment included) (unpatched : c.Unpatched kind item.key name) :
    ∃ tag fields, c.Stands item.home profile.name tag ∧
      Entries.get? item.key (steps.definitions.items kind).inner = some (.record fields) ∧
      ToldAt name "profile" (some (.text tag)) (Entries.attributes fields) := by
  obtain ⟨scanned, found, related⟩ := steps.merges patchable
  cases all.symm.trans found
  have member : item ∈ items := by
    obtain ⟨_, among, same⟩ := List.mem_map.mp (Entries.mem_of_mem_ofList (Entries.mem_of_get? kept))
    exact Prod.mk.inj same |>.2 ▸ among
  have tells := taken.toldAt all member allProfiles known
  obtain ⟨fields, held, merges⟩ := related.get?_left kept
  obtain ⟨tag, stands, told⟩ := merges.toldAt (name_of_profile allProfiles known).2 tells
  obtain ⟨patched, patching, defined⟩ := steps.patching patchable
  obtain ⟨last, present, still⟩ := Patch.toldAt_applyAll (leaf_text tag) (by decide)
    (documentPatches_sources steps.keyed_sources kind) (steps.silent_patches unpatched) patching ⟨fields, held, told⟩
  refine ⟨tag, last, stands, ?_, still⟩
  rw [defined, Value.inner_record, Entries.get?_mapValues, present]
  rfl

/-! ### What a plain name means -/

private theorem Steps.has_profile {graph : Graph} (steps : Steps c graph) {profiles : List ScannedItem}
    (all : c.scanned .profile = .ok profiles) {e : Extension} (listed : e ∈ steps.extensions)
    {contribution : Contribution} (read : c.contribution e = .ok contribution) (name : Text) :
    Entries.has name contribution.profiles = true ↔ ∃ other ∈ profiles, other.home = some e ∧ other.name = name := by
  obtain ⟨items, scanned, keeps⟩ := scanned_contribution read .profile
  have kept : contribution.profiles = Entries.ofList (items.map ScannedItem.named) := keeps.kept
  rw [kept, Entries.has_ofList]
  obtain ⟨own, ownScanned, all⟩ := bind_eq_ok.mp all
  obtain ⟨extensions, found, all⟩ := bind_eq_ok.mp all
  cases found.symm.trans steps.found_eq
  obtain ⟨given, givenScanned, all⟩ := bind_eq_ok.mp all
  cases pure_eq_ok.mp all
  constructor
  · intro present
    obtain ⟨_, member, rfl⟩ := List.mem_map.mp present
    obtain ⟨item, inside, rfl⟩ := List.mem_map.mp member
    obtain ⟨items', known, same⟩ := exists_right_of_mem (mapM_eq_ok.mp givenScanned) listed
    cases scanned.symm.trans same
    exact ⟨item, List.mem_append_right _ (List.mem_flatten.mpr ⟨_, known, inside⟩),
      (Scan.home_of_scanned scanned inside).1, rfl⟩
  · rintro ⟨other, member, home, rfl⟩
    rcases List.mem_append.mp member with base | inside
    · cases home.symm.trans (Scan.home_of_scanned ownScanned base).1
    · obtain ⟨items', known, inside⟩ := List.mem_flatten.mp inside
      obtain ⟨e', _, scanned'⟩ := exists_left_of_mem (mapM_eq_ok.mp givenScanned) known
      cases home.symm.trans (Scan.home_of_scanned scanned' inside).1
      cases scanned.symm.trans scanned'
      exact List.mem_map.mpr ⟨_, List.mem_map.mpr ⟨other, inside, rfl⟩, rfl⟩

end Compilation

/-- The plain name of a profile means it in a home: the profile is the home's own, or it is one of the base
schema and the home has none of that name. A name with a slash is one of the base schema. -/
def ScannedItem.MeantAt (profile : ScannedItem) (profiles : List ScannedItem) (home : Option Extension) : Prop :=
  match profile.home with
  | none => home = none ∨ profile.name.hasSlash = true ∨
      ∀ other ∈ profiles, other.home = home → other.name ≠ profile.name
  | some e => home = some e ∧ profile.name.hasSlash = false

namespace Compilation

variable {c : Compilation} {kind : ItemKind}

private theorem within_ne (scope name : Text) : Scope.within scope name ≠ name := by
  intro same
  have lengths := congrArg (fun text => text.codes.length) same
  simp only [Scope.within, Text.codes_append, Text.codes_slash, List.length_append, List.length_singleton] at lengths
  omega

private theorem Steps.stands_iff {graph : Graph} (steps : Steps c graph) {profiles : List ScannedItem}
    (all : c.scanned .profile = .ok profiles) {profile : ScannedItem} (known : profile ∈ profiles)
    {home : Option Extension} (inside : ∀ e ∈ home, e ∈ steps.extensions)
    (insideProfile : ∀ e ∈ profile.home, e ∈ steps.extensions) {tag : Text}
    (stands : c.Stands home profile.name tag) : tag = profile.key ↔ profile.MeantAt profiles home := by
  obtain ⟨plain, apart⟩ := distinct_of_locateExtensions (Act.settles_of_content c.tree steps.locating).yields
  unfold Stands at stands
  unfold ScannedItem.MeantAt ScannedItem.key
  cases home with
  | none =>
      subst stands
      cases profile.home with
      | none => simp
      | some own => simp [(within_ne own.name profile.name).symm]
  | some e =>
      obtain ⟨contribution, read, rfl⟩ := stands
      have listed := inside e rfl
      have owned := steps.has_profile all listed read profile.name
      have extension := extension_contribution read
      unfold Contribution.meant
      rw [extension]
      cases shape : profile.home with
      | none =>
          have unowned : (∀ other ∈ profiles, other.home = some e → other.name ≠ profile.name) ↔
              ¬Entries.has profile.name contribution.profiles = true := by
            rw [owned]
            simp
          split
          · rename_i own
            simp [within_ne, unowned, own]
          · rename_i other
            have left : profile.name.hasSlash = true ∨ ¬Entries.has profile.name contribution.profiles = true := by
              rcases not_and_or.mp other with slashed | absent
              · exact .inl (Bool.not_eq_false _ ▸ slashed)
              · exact .inr absent
            simpa [unowned] using left
      | some own =>
          have known' := insideProfile own shape
          split
          · rename_i both
            constructor
            · intro same
              have named := Scope.within_scope_inj (plain e listed) (plain own known') same
              exact ⟨congrArg some (List.inj_on_of_nodup_map (List.pairwise_map.mpr apart) listed known' named),
                both.1⟩
            · rintro ⟨⟨⟩, _⟩
              rfl
          · rename_i other
            refine iff_of_false (within_ne own.name profile.name).symm ?_
            rintro ⟨⟨⟩, free⟩
            exact other ⟨free, owned.mpr ⟨profile, known, shape, rfl⟩⟩

private theorem Steps.home_listed {graph : Graph} (steps : Steps c graph) {items : List ScannedItem}
    (all : c.scanned kind = .ok items) {item : ScannedItem} (member : item ∈ items) :
    ∀ e ∈ item.home, e ∈ steps.extensions := by
  intro e home
  obtain ⟨own, ownScanned, all⟩ := bind_eq_ok.mp all
  obtain ⟨extensions, found, all⟩ := bind_eq_ok.mp all
  cases found.symm.trans steps.found_eq
  obtain ⟨given, givenScanned, all⟩ := bind_eq_ok.mp all
  cases pure_eq_ok.mp all
  rcases List.mem_append.mp member with base | inside
  · cases home.symm.trans (Scan.home_of_scanned ownScanned base).1
  · obtain ⟨items', known, inside⟩ := List.mem_flatten.mp inside
    obtain ⟨e', listed, scanned'⟩ := exists_left_of_mem (mapM_eq_ok.mp givenScanned) known
    cases home.symm.trans (Scan.home_of_scanned scanned' inside).1
    exact listed

end Compilation

/-- An attribute that a class or an object includes from the file of a profile, which nothing else says to be
of a profile, is of that profile in the graph just when the plain name of the profile means it where the
definition is at home. -/
theorem Settings.profile_of_included {s : Settings} {tree : Tree} {graph : Graph}
    (compiled : (s.compile tree).Yields graph) {kind : ItemKind} {items profiles : List ScannedItem}
    (all : (s.compilation tree).scanned kind = .ok items)
    (allProfiles : (s.compilation tree).scanned .profile = .ok profiles) {item profile : ScannedItem}
    (kept : Entries.get? item.key (ScannedItem.byKey items) = some item) (known : profile ∈ profiles)
    {name file : Text} {fragment included : Fields}
    (taken : (s.compilation tree).TakesFrom item profile name file fragment included)
    (unpatched : (s.compilation tree).Unpatched kind item.key name) {entity : Entity}
    (shown : Entries.get? item.key (graph.entities kind) = some entity) :
    ∃ record, Entries.get? name entity.attributes = some record ∧
      (record.profile = .text profile.key ↔ profile.MeantAt profiles item.home) := by
  obtain ⟨steps⟩ := exists_steps compiled
  have patchable : kind ≠ .profile := by
    rintro rfl
    cases shown
  obtain ⟨tag, fields, stands, found, tells⟩ :=
    steps.toldAt patchable all kept allProfiles known taken unpatched
  obtain ⟨last, record, told⟩ := Graph.told_record steps.documents_definitions steps.building (by decide)
    shown found tells
  have member : item ∈ items := by
    obtain ⟨_, among, same⟩ := List.mem_map.mp (Entries.mem_of_mem_ofList (Entries.mem_of_get? kept))
    exact (Prod.mk.inj same).2 ▸ among
  refine ⟨_, record, ?_⟩
  have said : (Attribute.ofFields name last).profile = .text tag := by
    change Entries.orNull "profile" last = _
    rw [Entries.orNull, Entries.getOr, told, Option.getD_some]
  rw [said, Value.text.injEq]
  exact steps.stands_iff allProfiles known (steps.home_listed all member)
    (steps.home_listed allProfiles known) stands

/-! ### Two profiles of one name -/

namespace Include

def readOnce (files : List Path) (tree : Tree) (places : Places) (stack : List Path) (name context : Text) :
    Act (Option Fields) := do
  match ← (find tree places name).attempt with
  | .error fault =>
    if isTolerated fault then
      leaveUnresolved (.notIncluded context name fault)
      return none
    else throw fault
  | .ok (path, fragment) =>
    if path ∈ stack then throw (.integrity (.includeCycle context (stack ++ [path])))
    else if path ∈ files then
      note (.including context path)
      return some (← expandWith (read tree places (stack ++ [path])) ("include " ++ name.enclosed) fragment)
    else throw (.file (.missing path))

private theorem read_eq_readOnce (tree : Tree) : read tree = readOnce (candidates tree) tree := by
  funext places stack name context
  rw [read, readOnce]
  rfl

end Include

namespace Settings

/-- A schema and an extension with a profile of the same name, and a class of the extension that includes
the file `profiles/host.json`. The extension has its profile in that file or in another one. -/
def hostTree (own : Bool) : Tree :=
  let profile : Fields := [("name", .text "host"), ("meta", .text "profile"),
    ("attributes", .record [("device", .record [("type", .text "string_t")])])]
  .ofDocuments [
    (["schema", "categories.json"], [("attributes", .record [])]),
    (["schema", "dictionary.json"], [("attributes", .record [])]),
    (["schema", "events", "base_event.json"], [("name", .text "base_event")]),
    (["schema", "profiles", "host.json"], profile),
    (["corp", "extension.json"], [("name", .text "corp"), ("uid", .int 7)]),
    (["corp", "events", "login.json"], [("name", .text "login"), ("uid", .int 1),
      ("attributes", .record [("$include", .text "profiles/host.json")])]),
    (["corp", "profiles", if own then "host.json" else "machine.json"], profile)]

def hostFiles (own : Bool) : List Path :=
  ([["corp", "extension.json"], ["corp", "events", "login.json"],
    ["corp", "profiles", if own then "host.json" else "machine.json"], ["schema", "categories.json"],
    ["schema", "dictionary.json"], ["schema", "events", "base_event.json"],
    ["schema", "profiles", "host.json"]] : List (List Text)).map (Path.mk .top)

private theorem candidates_hostTree (own : Bool) : Include.candidates (hostTree own) = hostFiles own := by
  cases own <;> cbv

def hostCompilation (own : Bool) : Compilation := withCorp.compilation (hostTree own)

def loginFile : Path := ("/corp/events/login.json" : Text)

def hostFile (own : Bool) : Path :=
  if own then ("/corp/profiles/host.json" : Text) else ("/schema/profiles/host.json" : Text)

def located (items : List ScannedItem) : List (Text × Text × Path × Option Extension) :=
  items.map fun item => (item.key, item.name, item.file, item.home)

private theorem located_classes (own : Bool) : ((hostCompilation own).scanned .eventClass).toOption.map located =
    some ([("base_event", "base_event", ("/schema/events/base_event.json" : Text), none),
      ("corp/login", "login", loginFile, some (corp "corp"))] : List (Text × Text × Path × Option Extension)) := by
  cases own <;>
  · unfold Compilation.scanned Compilation.scannedBase Compilation.scannedOf Scan.scanned Scan.itemOf
    simp only [hostCompilation, compilation, Compilation.baseScan, Contribution.scan, Scan.document_eq_load,
      Include.expand_eq, Include.read_eq_readOnce, candidates_hostTree]
    decide +kernel

private theorem located_profiles (own : Bool) : ((hostCompilation own).scanned .profile).toOption.map located =
    some ([("host", "host", ("/schema/profiles/host.json" : Text), none),
      ("corp/host", "host", if own then ("/corp/profiles/host.json" : Text) else ("/corp/profiles/machine.json" : Text),
        some (corp "corp"))] : List (Text × Text × Path × Option Extension)) := by
  cases own <;> decide +kernel

private theorem device_included (own : Bool) :
    ((Fragment.load (hostTree own) loginFile).content.toOption.map fun fragment =>
      ((Entries.get? Include.directive (Entries.attributes fragment)).bind Include.names?,
        Entries.get? "device" (Entries.attributes fragment))) = some (some (["profiles/host.json"] : List Text), none) ∧
    ((Include.read (hostTree own) ((hostCompilation own).placesOf (some (corp "corp")))
      [(hostTree own).resolve loginFile]
      "profiles/host.json" "").content.toOption.bind id).map (fun included =>
        (Entries.get? "meta" included, Entries.get? "device" (Entries.attributes included))) =
      some (some (.text "profile"), some (.record [("type", .text "string_t")])) ∧
    ((((hostCompilation own).placesOf (some (corp "corp"))).find (hostTree own) "profiles/host.json").map
      (hostTree own).resolve).toOption = some ((hostTree own).resolve (hostFile own)) := by
  rw [Include.read_eq_readOnce, candidates_hostTree]
  cases own <;> exact ⟨by decide +kernel, by decide +kernel, by decide +kernel⟩

private theorem unpatched_host (own : Bool) : ((do
      (← (hostCompilation own).found).mapM (hostCompilation own).contribution) :
        Except Fault (List Contribution)).toOption.map (List.map fun c => decide (c.patches .eventClass = [])) =
    some [true] := by
  cases own <;>
  · unfold Compilation.contribution
    simp only [hostCompilation, compilation, Contribution.read, Scan.patchable,
      Scan.items, Scan.document_eq_load, Include.expand_eq, Include.read_eq_readOnce, candidates_hostTree]
    decide +kernel

private theorem login_compiled (own : Bool) : ((withCorp.compile (hostTree own)).outcome {}).1.toOption.map
    (fun graph => (Entries.get? "corp/login" graph.classes).map fun entity =>
      (Entries.get? "device" entity.attributes).map Attribute.profile) =
        some (some (some (.text "corp/host"))) := by
  cases own <;>
  · simp only [compile, Compilation.run, Compilation.build, Compilation.readAll, Scan.items, Scan.patchable,
      Contribution.read, Scan.document_eq_load, Include.expand_eq, Include.read_eq_readOnce, candidates_hostTree]
    decide +kernel

structure HostCase (own : Bool) (graph : Graph) (items profiles : List ScannedItem) (item profile : ScannedItem)
    (fragment included : Fields) (entity : Entity) (record : Attribute) : Prop where
  compiled : (withCorp.compile (hostTree own)).Yields graph
  scannedClasses : (hostCompilation own).scanned .eventClass = .ok items
  scannedProfiles : (hostCompilation own).scanned .profile = .ok profiles
  kept : Entries.get? item.key (ScannedItem.byKey items) = some item
  known : profile ∈ profiles
  taken : (hostCompilation own).TakesFrom item profile "device" "profiles/host.json" fragment included
  unpatched : (hostCompilation own).Unpatched .eventClass item.key "device"
  shown : Entries.get? item.key (graph.entities .eventClass) = some entity
  held : Entries.get? "device" entity.attributes = some record
  home : item.home = some (corp "corp")
  key : profile.key = (if own then "corp/host" else "host" : Text)
  told : record.profile = .text "corp/host"

private theorem exists_located {items : List ScannedItem} {list : List (Text × Text × Path × Option Extension)}
    (same : located items = list) (entry : Text × Text × Path × Option Extension)
    (member : entry ∈ list) :
    ∃ item ∈ items, item.key = entry.1 ∧ item.name = entry.2.1 ∧ item.file = entry.2.2.1 ∧
      item.home = entry.2.2.2 := by
  rw [← same] at member
  obtain ⟨item, among, rfl⟩ := List.mem_map.mp member
  exact ⟨item, among, rfl, rfl, rfl, rfl⟩

private theorem exists_hostCase (own : Bool) : ∃ graph items profiles item profile fragment included entity record,
    HostCase own graph items profiles item profile fragment included entity record := by
  obtain ⟨items, inClasses, same⟩ := Option.map_eq_some_iff.mp (located_classes own)
  obtain ⟨profiles, inProfiles, same'⟩ := Option.map_eq_some_iff.mp (located_profiles own)
  obtain ⟨loaded, read, leads⟩ := device_included own
  obtain ⟨fragment, loads, loginFields⟩ := Option.map_eq_some_iff.mp loaded
  obtain ⟨included, reads, hostFields⟩ := Option.map_eq_some_iff.mp read
  obtain ⟨graph, compiled, shown⟩ := Act.exists_of_outcome (login_compiled own)
  obtain ⟨entity, found, shown⟩ := Option.map_eq_some_iff.mp shown
  obtain ⟨record, held, told⟩ := Option.map_eq_some_iff.mp shown
  obtain ⟨directed, absent⟩ := Prod.mk.inj loginFields
  obtain ⟨sort, device⟩ := Prod.mk.inj hostFields
  obtain ⟨item, member, key, _, file, home⟩ := exists_located same
    ("corp/login", "login", loginFile, some (corp "corp")) (by decide +kernel)
  obtain ⟨profile, known, profileKey, _, profileFile, _⟩ := exists_located same'
    (if own then "corp/host" else "host", "host", hostFile own, if own then some (corp "corp") else none)
    (by cases own <;> decide +kernel)
  have distinct : (items.map ScannedItem.key).Nodup := by
    have keys : items.map ScannedItem.key = (located items).map Prod.fst := by
      rw [located, List.map_map]
      rfl
    rw [keys, same]
    decide +kernel
  have gives : Include.Gives (hostTree own) ((hostCompilation own).placesOf (some (corp "corp")))
      [(hostTree own).resolve loginFile] "profiles/host.json" included := by
    obtain ⟨read, ran, rfl⟩ := Option.bind_eq_some_iff.mp reads
    exact ⟨_, toOption_eq_some.mp ran⟩
  have taken : (hostCompilation own).TakesFrom item profile "device" "profiles/host.json" fragment included := by
    constructor
    · rw [file]
      exact toOption_eq_some.mp loads
    · rw [home, file]
      refine ⟨⟨[], [], directed, List.forall_mem_nil _⟩, gives, ?_, fun field among => ?_, fun field among => ?_⟩
      · rw [device]
        rfl
      · intro value given
        cases device.symm.trans given
        exact ⟨rfl, by revert field; decide⟩
      · intro value given
        cases absent.symm.trans given
    · exact sort
    · rw [home, profileFile]
      exact toOption_eq_some.mp leads
  have unpatched : (hostCompilation own).Unpatched .eventClass item.key "device" := by
    intro extensions located e listed contribution read patch member
    obtain ⟨contributions, all, none⟩ := Option.map_eq_some_iff.mp (unpatched_host own)
    have each := toOption_eq_some.mp all
    rw [located, ok_bind] at each
    obtain ⟨other, among, same⟩ := exists_right_of_mem (mapM_eq_ok.mp each) listed
    cases read.symm.trans same
    have empty : decide (contribution.patches .eventClass = []) ∈ [true] := none ▸ List.mem_map_of_mem among
    rw [of_decide_eq_true (List.mem_singleton.mp empty)] at member
    cases member
  refine ⟨graph, items, profiles, item, profile, fragment, included, entity, record, ?_⟩
  exact {
    compiled, known, told, home, held, taken, unpatched
    scannedClasses := toOption_eq_some.mp inClasses
    scannedProfiles := toOption_eq_some.mp inProfiles
    kept := ScannedItem.kept_of_nodup distinct member
    shown := key.symm ▸ found
    key := profileKey }

/-- A class of the extension includes the extension's own profile, which is named like one of the schema. -/
theorem profile_of_included_ownHost : ∃ graph items profiles item profile fragment included entity record,
    HostCase true graph items profiles item profile fragment included entity record ∧
    profile.MeantAt profiles item.home ∧ record.profile = .text profile.key := by
  obtain ⟨graph, items, profiles, item, profile, fragment, included, entity, record, host⟩ := exists_hostCase true
  obtain ⟨other, held, meant⟩ := profile_of_included host.compiled host.scannedClasses host.scannedProfiles
    host.kept host.known host.taken host.unpatched host.shown
  cases host.held.symm.trans held
  have same : record.profile = .text profile.key := by
    rw [host.told, host.key]
    rfl
  exact ⟨graph, items, profiles, item, profile, fragment, included, entity, record, host, meant.mp same, same⟩

/-- The extension has no file of that name, so the class includes the profile of the schema. But the extension
has a profile named like it, and the attribute is said to be of that one. -/
theorem other_host_is_meant : ∃ graph items profiles item profile fragment included entity record,
    HostCase false graph items profiles item profile fragment included entity record ∧
    record.profile ≠ .text profile.key := by
  obtain ⟨graph, items, profiles, item, profile, fragment, included, entity, record, host⟩ := exists_hostCase false
  refine ⟨graph, items, profiles, item, profile, fragment, included, entity, record, host, ?_⟩
  rw [host.told, host.key]
  decide

end Settings

end EventSchema
