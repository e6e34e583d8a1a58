import EventSchema.Proofs.Contribution.LeftOut
import EventSchema.Proofs.Conservative
import EventSchema.Proofs.Definitions
import EventSchema.Proofs.Graph.Touched

/-!
A patch changes the attributes that it names.

A schema is compiled with a patch of an object and without it. An attribute of the object that the patch does
not name, and that has no object in common with the named ones, is the same in both graphs, but for what a
build makes of the named ones: their siblings, and the list of all observables.
-/

set_option autoImplicit false

namespace EventSchema

open Value

/-- The objects that an object extends, one through another. -/
def Definitions.Above (d : Definitions) (key name : Text) : Prop :=
  ∃ item above, Lineage.Ancestry d.objects.inner ((key, item) :: above) ∧ name ∈ Entries.keys above

theorem Lineage.Ancestry.get?_of_mem {items : Entries Fields} {line : List (Text × Fields)}
    (ancestry : Ancestry (Entries.mapValues Value.record items) line) {entry : Text × Fields}
    (member : entry ∈ line) : Entries.get? entry.1 items = some entry.2 := by
  obtain ⟨mark, known⟩ := ancestry.object_of_mem member
  rw [Entries.get?_mapValues] at known
  obtain ⟨_, held, same⟩ := Option.map_eq_some_iff.mp known
  cases same
  exact held

/-- Whatever is patched in two ways, the fields that no patch writes are the same. -/
private theorem Patch.related_twice {kind : ItemKind} {patches patches' : Patches}
    {items patched patched' : Entries Fields} (ran : (applyAll kind items patches).Yields patched)
    (ran' : (applyAll kind items patches').Yields patched') (documents : DocumentEach patched)
    (documents' : DocumentEach patched') :
    Entries.Related (fun _ item other => Entries.Distinct item ∧ Entries.Distinct other ∧
      Entries.SameBeside writtenKeys item other) patched patched' := by
  have itself {items : Entries Fields} (documents : DocumentEach items) :
      Entries.Related (fun _ item other => item = other ∧ Entries.Distinct item) items items :=
    List.forall₂_same.mpr fun entry member => ⟨rfl, rfl, (documents.each entry member).keyed.distinct⟩
  have between := ((itself documents).trans (related_applyAll ran).flip).trans
    ((related_applyAll ran').trans (itself documents'))
  refine between.imp ?_
  rintro _ item other ⟨raw, ⟨_, ⟨rfl, distinct⟩, before⟩, _, after, rfl, distinct'⟩
  exact ⟨distinct, distinct', fun field kept => (after field kept).trans (before field kept).symm⟩

namespace Compilation

/-! ### Attributes that share nothing with the others -/

/-- In the files that define an object, and in those that patch it, the given attributes have no object in
common with the others. -/
structure IndependentAt (c : Compilation) (extensions : List Extension) (touched : List Text) (key : Text) : Prop where
  base : ∀ sources, c.baseSchema = .ok sources →
    ∀ item ∈ Entries.get? key sources.objects, Independent touched (Entries.attributes item)
  own : ∀ e ∈ extensions, ∀ contribution, c.contribution e = .ok contribution →
    ∀ entry ∈ contribution.objects, Scope.within e.name entry.1 = key →
      Independent touched (Entries.attributes entry.2)
  patches : ∀ e ∈ extensions, ∀ contribution, c.contribution e = .ok contribution →
    ∀ patch ∈ Entries.get? key contribution.objectPatches, Independent touched (Entries.attributes patch)

instance (c : Compilation) (extensions : List Extension) (touched : List Text) :
    DecidablePred (c.IndependentAt extensions touched) := fun key =>
  decidable_of_iff
    ((∀ sources, c.baseSchema = .ok sources →
        ∀ item ∈ Entries.get? key sources.objects, Independent touched (Entries.attributes item)) ∧
      (∀ e ∈ extensions, ∀ contribution, c.contribution e = .ok contribution →
        ∀ entry ∈ contribution.objects, Scope.within e.name entry.1 = key →
          Independent touched (Entries.attributes entry.2)) ∧
      ∀ e ∈ extensions, ∀ contribution, c.contribution e = .ok contribution →
        ∀ patch ∈ Entries.get? key contribution.objectPatches, Independent touched (Entries.attributes patch))
    ⟨fun ⟨base, own, patches⟩ => { base, own, patches }, fun all => ⟨all.base, all.own, all.patches⟩⟩

structure Sources.IndependentAt (touched : List Text) (key : Text) (s : Sources) : Prop where
  object : ∀ item ∈ Entries.get? key s.objects, Independent touched (Entries.attributes item)
  patches : ∀ patch ∈ (Entries.get? key s.objectPatches).getD [], Independent touched (Entries.attributes patch)

variable {c c' : Compilation} {graph other : Graph} {touched : List Text} {key : Text}

private theorem unpatched_baseSchema {base : Sources} (ran : c.baseSchema = .ok base) : base.objectPatches = [] := by
  unfold baseSchema at ran
  obtain ⟨_, _, ran⟩ := bind_eq_ok.mp ran
  obtain ⟨_, _, ran⟩ := bind_eq_ok.mp ran
  obtain ⟨_, _, ran⟩ := bind_eq_ok.mp ran
  obtain ⟨_, _, ran⟩ := bind_eq_ok.mp ran
  obtain ⟨_, _, ran⟩ := bind_eq_ok.mp ran
  exact pure_eq_ok.mp ran ▸ rfl

/-- What is independent in the files is so in the sources: preparing a contribution brings nothing together. -/
theorem Steps.independentAt (steps : Steps c graph) (independent : c.IndependentAt steps.extensions touched key) :
    steps.sources.IndependentAt touched key := by
  refine Act.foldlM_keeps (motive := Sources.IndependentAt touched key) steps.merging
    ⟨independent.base _ steps.reading, by rw [unpatched_baseSchema steps.reading]; exact List.forall_mem_nil _⟩ ?_
  intro s p added member held ran
  obtain ⟨e, located, prepares⟩ := exists_left_of_mem steps.prepares member
  have document := keyed_prepares prepares
  have extension := extension_of_prepares prepares
  obtain ⟨contribution, read, prepared⟩ := prepares
  obtain ⟨_, _, _, _, rfl⟩ := Sources.add_ok ran
  constructor
  · intro item found
    rcases get?_addScoped found with known | ⟨entry, given, rfl, rfl⟩
    · exact held.object item known
    · obtain ⟨raw, origin, kept⟩ := (Contribution.attributes_prepared prepared).1
        (Entries.get?_of_mem document.objects.keys given)
      exact kept touched (independent.own e located contribution read _ (Entries.mem_of_get? origin)
        (by rw [← extension]))
  · intro patch given
    rw [get?_addPatches document.objectPatches.keys, List.mem_append, Option.mem_toList] at given
    rcases given with old | new
    · exact held.patches patch old
    · obtain ⟨raw, origin, _, kept⟩ := (Contribution.attributes_prepared prepared).2 new
      exact kept touched (independent.patches e located contribution read raw origin)

private theorem Sources.IndependentAt.divided_patched {s : Sources} (independent : s.IndependentAt touched key)
    {patched : Entries Fields} (documents : DocumentEach patched) (distinct : Entries.Distinct s.objectPatches)
    (ran : (Patch.applyAll .object s.objects s.objectPatches).Yields patched) :
    ∀ item ∈ Entries.get? key patched, Divided touched (Entries.attributes item) := by
  intro item found
  obtain ⟨raw, known, _⟩ := (Patch.related_applyAll ran).get?_right found
  obtain ⟨result, applied, held⟩ := Patch.get?_applyAll distinct known ran
  cases (Option.mem_def.mp found).symm.trans held
  exact ⟨Patch.independent_applyEach independent.patches (independent.object raw known) applied,
    (documents.of_get? found).keyed.attributes.distinct⟩

/-! ### With and without a patch -/

structure WithoutPatch (c c' : Compilation) (extensions : List Extension) (e : Extension) (key : Text)
    (patch : Fields) : Prop where
  found : c.found = .ok extensions
  found' : c'.found = .ok extensions
  base : c'.baseSchema = c.baseSchema
  others : ∀ other ∈ extensions, other ≠ e → c'.contribution other = c.contribution other
  own : ∃ contribution, c.contribution e = .ok contribution ∧
    Entries.get? key contribution.objectPatches = some patch ∧
    c'.contribution e = .ok (contribution.leavingOut key)

def patchedNames (patch : Fields) : List Text := Entries.keys (Entries.attributes patch)

namespace WithoutPatch

variable {extensions : List Extension} {e : Extension} {patch : Fields}
  (without : WithoutPatch c c' extensions e key patch)
  (named : ∀ name ∈ patchedNames patch, name ∈ touched)

include without named

theorem prepares {at_ : Extension} (located : at_ ∈ extensions) {p p' : Contribution} (one : c.Prepares at_ p)
    (two : c'.Prepares at_ p') : p.LeavesOut key touched p' := by
  obtain ⟨contribution, read, ran⟩ := one
  obtain ⟨contribution', read', ran'⟩ := two
  by_cases own : at_ = e
  · subst own
    obtain ⟨given, known, found, known'⟩ := without.own
    cases read.symm.trans known
    cases read'.symm.trans known'
    refine Or.inr ⟨Contribution.prepare_leavingOut ran ran', fun prepared held => ?_⟩
    obtain ⟨raw, origin, names, _⟩ := (Contribution.attributes_prepared ran).2 held
    cases found.symm.trans origin
    rw [names]
    exact named
  · rw [without.others at_ located own, read] at read'
    cases read'
    exact Or.inl (Contribution.agree_prepare _ _ _ ran' ran)

theorem sources (steps : Steps c graph) (steps' : Steps c' other) :
    Sources.LeavesOut key touched steps.sources steps'.sources := by
  have located : steps.extensions = extensions := Except.ok.inj (steps.found_eq.symm.trans without.found)
  have located' : steps'.extensions = extensions := Except.ok.inj (steps'.found_eq.symm.trans without.found')
  have same : steps'.base = steps.base :=
    Except.ok.inj (steps'.reading.symm.trans (without.base.trans steps.reading))
  have one := steps.prepares
  have two := steps'.prepares
  have merging' := steps'.merging
  rw [located] at one
  rw [located'] at two
  rw [same] at merging'
  have between : List.Forall₂ (Contribution.LeavesOut key touched) steps.prepared steps'.prepared := by
    have each (at_ : Extension) (among : at_ ∈ extensions) (p p' : Contribution) (one : c.Prepares at_ p)
        (two : c'.Prepares at_ p') : p.LeavesOut key touched p' := without.prepares named among one two
    clear without named located located'
    generalize steps.prepared = prepared at one
    generalize steps'.prepared = prepared' at two
    induction one generalizing prepared' with
    | nil =>
        cases List.forall₂_nil_left_iff.mp two
        exact .nil
    | @cons extension p rest others first _ ih =>
        obtain ⟨own, among⟩ := List.forall_mem_cons.mp each
        obtain ⟨p', others', first', later, rfl⟩ := List.forall₂_cons_left_iff.mp two
        exact .cons (own _ _ first first') (ih among _ later)
  refine (Sources.LeavesOut.unpatched (unpatched_baseSchema steps.reading) _ _).merge between ?_ steps.merging
    merging'
  intro p member
  obtain ⟨_, _, prepares⟩ := exists_left_of_mem steps.prepares member
  exact (keyed_prepares prepares).objectPatches.keys

private theorem touched_definitions (steps : Steps c graph) (steps' : Steps c' other)
    (independent : ∀ name, name = key ∨ steps.definitions.Above key name → c.IndependentAt extensions touched name) :
    ∃ items others, steps.definitions.Touched key touched steps'.definitions items others := by
  have located : steps.extensions = extensions := Except.ok.inj (steps.found_eq.symm.trans without.found)
  have leaves := without.sources named steps steps'
  have keyed := steps.keyed_sources
  have keyed' := steps'.keyed_sources
  obtain ⟨classes, objects, _, patching, defined⟩ := Sources.definitions_ok steps.defining
  obtain ⟨classes', objects', _, patching', defined'⟩ := Sources.definitions_ok steps'.defining
  have above : steps.definitions.objects = .record (Entries.mapValues Value.record objects) := by rw [defined]
  have sources (name : Text) (of : name = key ∨ steps.definitions.Above key name) :
      steps.sources.IndependentAt touched name := steps.independentAt (located ▸ independent name of)
  generalize steps'.sources = second at leaves keyed' patching' defined'
  obtain ⟨⟨patches, rfl⟩, distinct, distinct', elsewhere, places, places', aligned, own, own'⟩ := leaves
  dsimp only at patching' distinct' elsewhere own'
  have documents := Patch.documents_applyAll keyed.objectPatches keyed.objects patching
  have documents' := Patch.documents_applyAll keyed'.objectPatches keyed.objects patching'
  have related := Patch.related_twice patching patching' documents documents'
  have shares := sources key (Or.inl rfl)
  -- the patches of the object run side by side, with and without the one left out
  have patched {item other : Fields} (found : Entries.get? key objects = some item)
      (found' : Entries.get? key objects' = some other) :
      Independent touched (Entries.attributes other) ∧
        TwinBeside touched (Entries.attributes item) (Entries.attributes other) := by
    obtain ⟨raw, known, _⟩ := (Patch.related_applyAll patching).get?_right found
    obtain ⟨result, applied, held⟩ := Patch.get?_applyAll distinct known patching
    obtain ⟨result', applied', held'⟩ := Patch.get?_applyAll distinct' known patching'
    cases found.symm.trans held
    cases found'.symm.trans held'
    refine (Patch.agree_applyEach aligned (fun given member => shares.patches given ?_) (shares.object raw known)
      (shares.object raw known) (.refl _ _) (own ▸ applied) (own' ▸ applied')).2
    rw [own]
    exact List.mem_filterMap.mpr ⟨_, member, rfl⟩
  refine ⟨objects, objects', ?_⟩
  exact {
    related := related
    elsewhere := fun name ne =>
      Patch.get?_applyAll_congr distinct distinct' (elsewhere name ne) patching patching'
    attributes := fun item found other found' => (patched found found').2.unshared_eq
    divided := shares.divided_patched documents distinct patching
    divided' := fun other found' => by
      obtain ⟨item, found, _⟩ := related.get?_right found'
      exact ⟨(patched found found').1, (documents'.of_get? found').keyed.attributes.distinct⟩
    ancestors := fun item beyond ancestry entry member => by
      refine (sources entry.1 (Or.inr ⟨item, beyond, ?_, List.mem_map_of_mem member⟩)).divided_patched
        documents distinct patching entry.2 ?_
      · rw [above]
        exact ancestry
      · exact ancestry.get?_of_mem (List.mem_cons_of_mem _ member)
    objects := above
    objects' := by rw [defined']
    dictionary := by rw [defined, defined']
    profiles := by rw [defined, defined'] }

end WithoutPatch

end Compilation

namespace Settings

/-- A patch changes only the attributes that it names. An attribute of the object that shares nothing with
these, directly or through others, has the same JSON in the graph without the patch, unless it was made as
the sibling of one that does, or lists the observables. -/
theorem patch_untouched {s : Settings} {tree tree' : Tree} {graph other : Graph}
    (compiled : (s.compile tree).Yields graph) (compiled' : (s.compile tree').Yields other)
    {extensions : List Extension} {e : Extension} {key : Text} {patch : Fields}
    (without : (s.compilation tree).WithoutPatch (s.compilation tree') extensions e key patch)
    {d d' : Definitions} (defined : (s.compilation tree).definitions = .ok d)
    (defined' : (s.compilation tree').definitions = .ok d')
    {touched : List Text} (named : ∀ name ∈ withListing key (Compilation.patchedNames patch), name ∈ touched)
    (independent : ∀ name, name = key ∨ d.Above key name →
      (s.compilation tree).IndependentAt extensions touched name)
    {entity entity' : Entity} (found : Entries.get? key graph.objects = some entity)
    (found' : Entries.get? key other.objects = some entity') {name : Text} (untouched : name ∉ touched)
    (apart : d'.Gives key name ∨ ∀ origin ∈ touched, name ≠ Draft.datetimeName origin)
    {record record' : Attribute} (held : Entries.get? name entity.attributes = some record)
    (held' : Entries.get? name entity'.attributes = some record') :
    unsharedFields record'.toFields = unsharedFields record.toFields := by
  obtain ⟨steps⟩ := exists_steps compiled
  obtain ⟨steps'⟩ := exists_steps compiled'
  cases steps.definitions_eq defined
  cases steps'.definitions_eq defined'
  obtain ⟨listed, own⟩ := forall_mem_withListing.mp named
  obtain ⟨items, others, differ⟩ := without.touched_definitions own steps steps' independent
  exact Graph.untouched differ listed steps.building steps'.building found found' untouched apart held held'

/-! ### One attribute of the object for observables, patched -/

deriving instance DecidableEq for Compilation.Sources, Contribution

/-- What the file of the object says of each attribute that does not say it itself. -/
def seenAnnotations : Value := .record [("display", .record [("icon", .text "mail")])]

/-- An object with a list, two addresses and a time. The addresses have their display in common. -/
def seenSchema : List (List Text × Fields) := [
  (["schema", "categories.json"], [("attributes", .record [])]),
  (["schema", "dictionary.json"], [
    ("attributes", .record [("email", .record [("type", .text "string_t")]),
      ("sender", .record [("type", .text "string_t")]), ("seen", .record [("type", .text "timestamp_t")])]),
    ("types", .record [("attributes", .record [("string_t", .record []), ("timestamp_t", .record []),
      ("datetime_t", .record [])])])]),
  (["schema", "profiles", "datetime.json"], [("name", .text "datetime")]),
  (["schema", "events", "base_event.json"], [("name", .text "base_event")]),
  (["schema", "objects", "observable.json"], [("name", .text "observable"), ("annotations", seenAnnotations),
    ("attributes", .record [("type_id", .record [("display", .record [])]), ("email", .record []),
      ("sender", .record []), ("seen", .record [("display", .record [])])])]),
  (["corp", "extension.json"], [("name", .text "corp"), ("uid", .int 7)])]

def seenTree (patches : List (List Text × Fields)) : Tree := .ofDocuments (seenSchema ++ patches)

def seenChange : Value := .record [("seen", .record [("observable", .int 9)])]

def patchedSeen : Compilation :=
  withCorp.compilation (seenTree [(["corp", "objects", "observable.json"],
    [("extends", .text "observable"), ("attributes", seenChange)])])

def unpatchedSeen : Compilation := withCorp.compilation (seenTree [])

def seenPatch : Fields := [
  ("extends", .text "observable"), ("attributes", seenChange),
  ("_origin", .text "/corp/objects/observable.json")]

private theorem eq_of_toOption {α : Type} {first second : Except Fault α} (same : first.toOption = second.toOption)
    (succeeds : second.toOption.isSome = true) : first = second := by
  obtain ⟨value, known⟩ := Option.isSome_iff_exists.mp succeeds
  rw [toOption_eq_some.mp (same.trans known), toOption_eq_some.mp known]

private theorem withoutPatch_seen :
    patchedSeen.WithoutPatch unpatchedSeen [corp "corp"] (corp "corp") "observable" seenPatch where
  found := toOption_eq_some.mp (by decide +kernel)
  found' := toOption_eq_some.mp (by decide +kernel)
  base := eq_of_toOption (by decide +kernel) (by decide +kernel)
  others := fun other among ne => absurd (List.mem_singleton.mp among) ne
  own := by
    have known : (patchedSeen.contribution (corp "corp")).toOption.map
        (fun contribution => Entries.get? "observable" contribution.objectPatches) =
          some (some seenPatch) := by
      decide +kernel
    have same : (unpatchedSeen.contribution (corp "corp")).toOption =
        (patchedSeen.contribution (corp "corp")).toOption.map (Contribution.leavingOut "observable") := by
      decide +kernel
    obtain ⟨contribution, read, patch⟩ := Option.map_eq_some_iff.mp known
    rw [read] at same
    exact ⟨contribution, toOption_eq_some.mp read, patch, toOption_eq_some.mp same⟩

def sharedDisplay : Value := .object (some 0) [("icon", .text "mail")]

def seenItems : Fields := [("observable", .record [
  ("name", .text "observable"),
  ("attributes", .record [("type_id", .record [("display", .record [])]),
    ("email", .record [("display", sharedDisplay)]), ("sender", .record [("display", sharedDisplay)]),
    ("seen", .record [("display", .record []), ("observable", .int 9),
      ("_source_patched", .text "corp/observable")])]),
  ("_origin", .text "/schema/objects/observable.json"), ("_patched_by", .array [.text "corp"])])]

private theorem not_above_seen {d : Definitions} (objects : d.objects = .record seenItems) (name : Text) :
    ¬d.Above "observable" name := by
  rintro ⟨item, above, ancestry, member⟩
  rw [objects, inner_record] at ancestry
  obtain ⟨_, rfl⟩ := ancestry.unique (.root rfl (Or.inr rfl))
  cases member

def seenTouched : List Text := ["type_id", "seen"]

private theorem independentAt_seen : patchedSeen.IndependentAt [corp "corp"] seenTouched "observable" := by
  decide +kernel

def emailFields : Fields := [
  ("type", .text "string_t"), ("requirement", .text "optional"), ("type_name", .text ∅),
  ("_source", .text "observable"), ("display", .record [("icon", .text "mail")])]

/-- The address, whether the sibling of the time is an observable, and whether the list has any. -/
def seenView (graph : Graph) : Option (Fields × Bool × Bool) := do
  let entity ← Entries.get? "observable" graph.objects
  let email ← Entries.get? "email" entity.attributes
  let sibling ← Entries.get? "seen_dt" entity.attributes
  let list ← Entries.get? "type_id" entity.attributes
  return (unsharedFields email.toFields, Entries.has "observable" (unsharedFields sibling.toFields),
    decide (Entries.get? "enum" (unsharedFields list.toFields) ≠ some (.record [])))

structure SeenIn (c : Compilation) (observed : Bool) (graph : Graph) (entity : Entity)
    (email sibling list : Attribute) : Prop where
  compiled : (withCorp.compile c.tree).Yields graph
  object : Entries.get? "observable" graph.objects = some entity
  address : Entries.get? "email" entity.attributes = some email
  dated : Entries.get? "seen_dt" entity.attributes = some sibling
  listed : Entries.get? "type_id" entity.attributes = some list
  fields : unsharedFields email.toFields = emailFields
  marked : Entries.has "observable" (unsharedFields sibling.toFields) = observed
  enumerated : decide (Entries.get? "enum" (unsharedFields list.toFields) ≠ some (.record [])) = observed

private theorem exists_seen {c : Compilation} {observed : Bool}
    (evaluated : ((withCorp.compile c.tree).outcome {}).1.toOption.map seenView =
      some (some (emailFields, observed, observed))) :
    ∃ graph entity email sibling list, SeenIn c observed graph entity email sibling list := by
  obtain ⟨graph, compiled, shown⟩ := Act.exists_of_outcome evaluated
  obtain ⟨entity, object, shown⟩ := Option.bind_eq_some_iff.mp shown
  obtain ⟨email, one, shown⟩ := Option.bind_eq_some_iff.mp shown
  obtain ⟨sibling, two, shown⟩ := Option.bind_eq_some_iff.mp shown
  obtain ⟨list, three, shown⟩ := Option.bind_eq_some_iff.mp shown
  obtain ⟨fields, shown⟩ := Prod.mk.inj (Option.some.inj shown)
  obtain ⟨marked, enumerated⟩ := Prod.mk.inj shown
  exact ⟨graph, entity, email, sibling, list, compiled, object, one, two, three, fields, marked, enumerated⟩

private theorem seen_patched : ∃ graph entity email sibling list,
    SeenIn patchedSeen true graph entity email sibling list :=
  exists_seen (by decide +kernel)

private theorem seen_unpatched : ∃ graph entity email sibling list,
    SeenIn unpatchedSeen false graph entity email sibling list :=
  exists_seen (by decide +kernel)

/-- The patch names the time, and the address stays, although it shares its display with another one. -/
theorem patch_untouched_email :
    ∃ graph other entity entity' record record',
      (withCorp.compile patchedSeen.tree).Yields graph ∧ (withCorp.compile unpatchedSeen.tree).Yields other ∧
      Entries.get? "observable" graph.objects = some entity ∧
      Entries.get? "observable" other.objects = some entity' ∧
      Entries.get? "email" entity.attributes = some record ∧
      Entries.get? "email" entity'.attributes = some record' ∧
      unsharedFields record.toFields = emailFields ∧
      unsharedFields record'.toFields = unsharedFields record.toFields := by
  have known : patchedSeen.definitions.toOption.map Definitions.objects = some (.record seenItems) := by
    decide +kernel
  have known' : unpatchedSeen.definitions.toOption.isSome = true := by
    decide +kernel
  have named : ∀ name ∈ withListing "observable" (Compilation.patchedNames seenPatch), name ∈ seenTouched := by
    decide
  obtain ⟨graph, entity, record, _, _, seen⟩ := seen_patched
  obtain ⟨other, entity', record', _, _, seen'⟩ := seen_unpatched
  obtain ⟨d, defined, objects⟩ := Option.map_eq_some_iff.mp known
  obtain ⟨d', defined'⟩ := Option.isSome_iff_exists.mp known'
  refine ⟨graph, other, entity, entity', record, record', seen.compiled, seen'.compiled, seen.object, seen'.object,
    seen.address, seen'.address, seen.fields,
    patch_untouched seen.compiled seen'.compiled withoutPatch_seen (toOption_eq_some.mp defined)
      (toOption_eq_some.mp defined') named ?_ seen.object seen'.object (by decide) (Or.inr (by decide))
      seen.address seen'.address⟩
  rintro name (rfl | above)
  · exact independentAt_seen
  · exact absurd above (not_above_seen objects name)

/-- An attribute that the patch of the time does not name differs in the graphs with and without it. -/
def ChangesUnnamed (name : Text) : Prop :=
  name ∉ Compilation.patchedNames seenPatch ∧ ∃ graph other entity entity' record record',
    (withCorp.compile patchedSeen.tree).Yields graph ∧ (withCorp.compile unpatchedSeen.tree).Yields other ∧
    Entries.get? "observable" graph.objects = some entity ∧
    Entries.get? "observable" other.objects = some entity' ∧
    Entries.get? name entity.attributes = some record ∧
    Entries.get? name entity'.attributes = some record' ∧
    unsharedFields record'.toFields ≠ unsharedFields record.toFields

/-- The patch names the time only. But its sibling is made with what the patch says, and so is the list of
the observables. -/
theorem patch_changes_unnamed :
    patchedSeen.WithoutPatch unpatchedSeen [corp "corp"] (corp "corp") "observable" seenPatch ∧
      patchedSeen.IndependentAt [corp "corp"] seenTouched "observable" ∧ ChangesUnnamed "seen_dt" ∧
        ChangesUnnamed "type_id" := by
  obtain ⟨graph, entity, _, sibling, list, seen⟩ := seen_patched
  obtain ⟨other, entity', _, sibling', list', seen'⟩ := seen_unpatched
  refine ⟨withoutPatch_seen, independentAt_seen,
    ⟨by decide, graph, other, entity, entity', sibling, sibling', seen.compiled, seen'.compiled, seen.object,
      seen'.object, seen.dated, seen'.dated, fun same => ?_⟩,
    ⟨by decide, graph, other, entity, entity', list, list', seen.compiled, seen'.compiled, seen.object,
      seen'.object, seen.listed, seen'.listed, fun same => ?_⟩⟩
  · have one := seen.marked
    rw [← same, seen'.marked] at one
    cases one
  · have one := seen.enumerated
    rw [← same, seen'.enumerated] at one
    cases one

end Settings

end EventSchema
