import EventSchema.Proofs.Documents
import EventSchema.Proofs.Graph.Closure

/-!
The definitions that a compilation builds its graph of.

What is read is prepared, merged and patched in one way only, so the definitions are told by the files.
Their classes and objects are documents. If none of these was flattened before and no attribute has a
source yet, they are as authors write them.
-/

set_option autoImplicit false

namespace EventSchema

namespace Patch

private theorem agree_apply (kind : ItemKind) (items : Entries Fields) (name : Text) (patch : Fields) :
    Act.Agree (apply kind items name patch) (apply kind items name patch) := by
  intro first second one two
  rcases apply_ok one with ⟨absent, rfl⟩ | ⟨item, patched, found, _, ran, rfl⟩
  · rcases apply_ok two with ⟨_, rfl⟩ | ⟨_, _, found, _⟩
    · rfl
    · cases absent.symm.trans found
  · rcases apply_ok two with ⟨absent, _⟩ | ⟨_, _, found', _, ran', rfl⟩
    · cases found.symm.trans absent
    · cases found.symm.trans found'
      cases ran.symm.trans ran'
      rfl

private theorem agree_applyAll (kind : ItemKind) (items : Entries Fields) (patches : Patches) :
    Act.Agree (applyAll kind items patches) (applyAll kind items patches) :=
  Act.agree_foldlM _ _ fun _ entry _ =>
    Act.agree_foldlM _ _ fun items patch _ => agree_apply kind items entry.1 patch

end Patch

namespace Compilation

def definitions (c : Compilation) : Except Fault Definitions := do
  let version ← c.version.content
  let extensions ← (c.locateExtensions version).content
  let base ← c.baseSchema
  let contributions ← extensions.mapM c.contribution
  let merge : Act Definitions := do
    let prepared ← contributions.mapM prepare
    let sources ← prepared.foldlM Sources.add base
    sources.definitions version extensions
  merge.content

private theorem agree_add (s : Sources) (c : Contribution) : Act.Agree (s.add c) (s.add c) := by
  intro first second one two
  obtain ⟨_, _, listed, extended, rfl⟩ := Sources.add_ok one
  obtain ⟨_, _, listed', extended', rfl⟩ := Sources.add_ok two
  cases listed.symm.trans listed'
  rw [Contribution.agree_extendDictionary c s.dictionary _ _ extended extended']

private theorem agree_definitions (s : Sources) (version : Value) (extensions : List Extension) :
    Act.Agree (s.definitions version extensions) (s.definitions version extensions) := by
  intro first second one two
  obtain ⟨_, _, classes, objects, rfl⟩ := Sources.definitions_ok one
  obtain ⟨_, _, classes', objects', rfl⟩ := Sources.definitions_ok two
  rw [Patch.agree_applyAll _ _ _ _ _ classes classes', Patch.agree_applyAll _ _ _ _ _ objects objects']

variable {c : Compilation} {graph : Graph} (steps : Steps c graph)

theorem Steps.definitions_eq {d : Definitions} (defined : c.definitions = .ok d) :
    steps.definitions = d := by
  unfold Compilation.definitions at defined
  rw [steps.naming, ok_bind, steps.locating, ok_bind, steps.reading, ok_bind, steps.contributing,
    ok_bind] at defined
  obtain ⟨prepared, prepares, merges⟩ := Act.yields_bind (Act.settles_of_content c.tree defined).yields
  obtain ⟨sources, merging, defining⟩ := Act.yields_bind merges
  have unique : Relator.RightUnique fun c p => (prepare c).Yields p := fun contribution first second =>
    Contribution.agree_prepare contribution first second
  have same : steps.prepared = prepared :=
    unique.forall₂ (Act.yields_mapM steps.preparing) (Act.yields_mapM prepares)
  rw [← same] at merging
  have merged := Act.agree_foldlM _ _ (fun s c _ => agree_add s c) _ _ steps.merging merging
  rw [← merged] at defining
  exact agree_definitions _ _ _ _ _ steps.defining defining

end Compilation

/-- Items none of which was flattened before, nor has an attribute with a source. -/
def Unsourced (items : Value) : Prop :=
  ∀ entry ∈ items.inner, Value.given (Entries.get? "_resolved" entry.2.inner) = false ∧
    ∀ own ∈ Entries.attributes entry.2.inner, Entries.get? "_source" own.2.inner = none

instance : DecidablePred Unsourced := fun items => by
  unfold Unsourced
  infer_instance

theorem DocumentEach.authored {items : Entries Fields} (documents : DocumentEach items)
    (unsourced : Unsourced (.record (Entries.mapValues Value.record items))) :
    AuthoredDocument (Entries.mapValues Value.record items) := by
  have held {key : Text} {mark : Option Nat} {item : Fields}
      (member : (key, .object mark item) ∈ Entries.mapValues Value.record items) : Document item := by
    obtain ⟨origin, known, same⟩ := List.mem_map.mp member
    cases same
    exact documents.each origin known
  exact {
    keys := documents.keys.mapValues _
    names := fun _ _ _ member => (held member).keyed.attributes.distinct
    named := fun key member => by
      rw [Entries.keys_mapValues] at member
      obtain ⟨origin, known, rfl⟩ := List.mem_map.mp member
      exact documents.named origin known
    fresh := fun _ _ _ member => (unsourced _ member).1
    attributes := fun key mark item member name own field known => by
      have document := held member
      refine ⟨document.single _ known own field rfl, ?_, (unsourced _ member).2 _ known⟩
      exact (Value.keyed_object.mp (document.keyed.attributes.of_mem known)).distinct }

structure Definitions.Authored (d : Definitions) : Prop where
  classes : ∀ items, d.classes.asFields = .ok items → AuthoredDocument items
  objects : ∀ items, d.objects.asFields = .ok items → AuthoredDocument items

theorem Compilation.Steps.authored {c : Compilation} {graph : Graph} (steps : Steps c graph)
    (classes : Unsourced steps.definitions.classes) (objects : Unsourced steps.definitions.objects) :
    steps.definitions.Authored := by
  obtain ⟨_, _, inClasses, inObjects, shape, shape'⟩ := steps.documents
  rw [shape] at classes
  rw [shape'] at objects
  constructor
  · intro items opened
    rw [shape] at opened
    cases opened
    exact inClasses.authored classes
  · intro items opened
    rw [shape'] at opened
    cases opened
    exact inObjects.authored objects

end EventSchema
