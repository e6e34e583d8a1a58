import EventSchema.Proofs.Graph.ClassUids
import EventSchema.Proofs.Graph.Requirements
import EventSchema.Proofs.Graph.Touched
import EventSchema.Proofs.Merging
import EventSchema.Proofs.Records

/-!
What becomes of each definition in a graph.

Every definition is listed in the hierarchy, and every class and object is shown unless it is hidden. The
file and the extension that an item comes from are its own: they are neither inherited nor written on the
way.
-/

set_option autoImplicit false

namespace EventSchema

def Graph.hierarchy (graph : Graph) : ItemKind → Entries Fields
  | .eventClass => graph.allClasses
  | .object => graph.allObjects
  | .profile => []

def Graph.listed (graph : Graph) : ItemKind → List Text
  | .eventClass => Entries.keys graph.allClasses
  | .object => Entries.keys graph.allObjects
  | .profile => Entries.keys graph.profiles

def Graph.entities (graph : Graph) : ItemKind → Entries Entity
  | .eventClass => graph.classes
  | .object => graph.objects
  | .profile => []

namespace Draft

private theorem hidden_placed (hidden : Bool) (item : Fields) :
    Entries.get? "hidden?" (placeInHierarchy hidden item) = some (.bool hidden) :=
  Entries.get?_put_self ..

/-- What is left of distinct items once some are hidden, told by what the hierarchy says of them. -/
theorem has_shown_iff {items : Entries Fields} (distinct : Entries.Distinct items)
    (hide : Text × Fields → Bool) {entry : Text × Fields}
    (listed : entry ∈ items.map fun e => (e.1, placeInHierarchy (hide e) e.2)) :
    Entries.has entry.1 (items.filter fun e => !hide e) = false ↔
      Entries.get? "hidden?" entry.2 = some (.bool true) := by
  obtain ⟨⟨key, item⟩, member, rfl⟩ := List.mem_map.mp listed
  rw [hidden_placed, Option.some.injEq, Value.bool.injEq, ← Bool.not_eq_true, Entries.has_iff_mem_keys]
  constructor
  · intro absent
    by_contra shown
    exact absent (List.mem_map.mpr ⟨_, List.mem_filter.mpr ⟨member, by simpa using shown⟩, rfl⟩)
  · intro hidden present
    obtain ⟨⟨_, other⟩, kept, rfl⟩ := List.mem_map.mp present
    obtain ⟨known, shown⟩ := List.mem_filter.mp kept
    have same := (Entries.get?_of_mem distinct known).symm.trans (Entries.get?_of_mem distinct member)
    cases same
    rw [hidden] at shown
    cases shown

end Draft

namespace Stages

variable {d : Definitions} {graph : Graph} (stages : Stages d graph)

private theorem hierarchy_eq :
    graph.allClasses = stages.hidden.allClasses ∧ graph.allObjects = stages.hidden.allObjects := by
  obtain ⟨_, _, classes, objects, _⟩ := Graph.of_draft stages.reading
  obtain ⟨_, _, _, dated⟩ := stages.dated_eq
  obtain ⟨_, _, _, required, _⟩ := Draft.requireAll_ok stages.requiring
  obtain ⟨_, _, _, finished, _⟩ := Draft.finish_ok stages.finishing
  rw [classes, objects, finished, required, dated]
  exact ⟨rfl, rfl⟩

private theorem keys_hierarchy : Entries.keys graph.allClasses = Entries.keys stages.rawClasses ∧
    Entries.keys graph.allObjects = Entries.keys stages.rawObjects := by
  obtain ⟨classes, objects⟩ := stages.hierarchy_eq
  have listed (items : Entries Fields) (hide : Text × Fields → Bool) :
      Entries.keys (items.map fun e => (e.1, Draft.placeInHierarchy (hide e) e.2)) = Entries.keys items := by
    simp [Entries.keys]
  rw [classes, objects, ← (Lineage.flattenAll_ok stages.flattenClasses).keys_eq,
    ← (Lineage.flattenAll_ok stages.flattenObjects).keys_eq]
  exact ⟨listed _ _, listed _ _⟩

private theorem keys_classes : Entries.keys graph.classes = Entries.keys stages.hidden.classes := by
  obtain ⟨_, read, _⟩ := Draft.graph_ok stages.reading
  obtain ⟨classes, shape, identifies⟩ := Draft.identifyClasses_ok stages.identifying
  obtain ⟨_, resolved⟩ := Draft.resolveDictionary_ok stages.resolving
  rw [read.keys_eq, stages.sameBeside_classes.keys_eq, shape, identifies.keys_eq, resolved]
  rfl

private theorem keys_shown_objects : Entries.keys graph.objects = Entries.keys stages.hidden.objects := by
  obtain ⟨_, _, read⟩ := Draft.graph_ok stages.reading
  obtain ⟨_, _, _, finished, _, finishes⟩ := Draft.finish_ok stages.finishing
  have objects : stages.finished.objects = _ := congrArg Draft.objects finished
  rw [read.keys_eq, objects, finishes.keys_eq, stages.related_objects.keys_eq]
  rfl

private theorem missing_iff_hidden (classes : Entries.Distinct stages.rawClasses)
    (objects : Entries.Distinct stages.rawObjects) (kind : ItemKind) :
    ∀ entry ∈ graph.hierarchy kind, Entries.has entry.1 (graph.entities kind) = false ↔
      Entries.get? "hidden?" entry.2 = some (.bool true) := by
  intro entry listed
  obtain ⟨allClasses, allObjects⟩ := stages.hierarchy_eq
  cases kind with
  | eventClass =>
      change Entries.has entry.1 graph.classes = false ↔ _
      rw [Entries.has_congr stages.keys_classes]
      exact Draft.has_shown_iff ((Lineage.flattenAll_ok stages.flattenClasses).distinct classes) _
        (allClasses ▸ listed : entry ∈ stages.hidden.allClasses)
  | object =>
      change Entries.has entry.1 graph.objects = false ↔ _
      rw [Entries.has_congr stages.keys_shown_objects]
      exact Draft.has_shown_iff ((Lineage.flattenAll_ok stages.flattenObjects).distinct objects) _
        (allObjects ▸ listed : entry ∈ stages.hidden.allObjects)
  | profile => cases listed

end Stages

/-- A record comes from the file and from the extension that the fields of its definition name. -/
structure Entity.ComesFrom (entity : Entity) (item : Fields) : Prop where
  origin : entity.origin = Entries.orNull "_origin" item
  extension : entity.extension = Entries.orNull "extension" item

structure Profile.ComesFrom (profile : Profile) (item : Fields) : Prop where
  origin : Entries.get? "_origin" profile.extras = Entries.get? "_origin" item
  extension : profile.extension = Entries.orNull "extension" item

private theorem Entity.comesFrom_of_ofFields {key : Text} {kind : ItemKind} {item whole : Fields} {entity : Entity}
    (ran : Entity.ofFields key kind whole = .ok entity)
    (same : ∀ field ∈ Lineage.ownKeys, Entries.get? field whole = Entries.get? field item) :
    entity.ComesFrom item := by
  obtain ⟨_, _, _, _, _, _, rfl⟩ := Entity.ofFields_ok.mp ran
  exact ⟨Entries.orNull_congr (same _ (by decide)), Entries.orNull_congr (same _ (by decide))⟩

namespace Stages

variable {d : Definitions} {graph : Graph} (stages : Stages d graph)

theorem exists_raw {kind : ItemKind} {items flat : Fields} {key : Text}
    (computed : Lineage.Flat kind items key flat) :
    ∃ mark item, Entries.get? key items = some (.object mark item) := by
  obtain ⟨item, above, line, _⟩ := computed
  cases line with
  | root found _ => exact ⟨_, _, found⟩
  | child found _ _ _ => exact ⟨_, _, found⟩

private theorem class_comesFrom (keyed : Value.Keyed (.record stages.rawClasses)) {entry : Text × Entity}
    (member : entry ∈ graph.classes) :
    ∃ mark item, Entries.get? entry.1 stages.rawClasses = some (.object mark item) ∧
      entry.2.ComesFrom item := by
  obtain ⟨flat, identified, result, known, identifying, beside, reads⟩ := stages.flat_of_class member
  obtain ⟨_, sameBut⟩ := Draft.identify_ok identifying
  obtain ⟨_, _, computed⟩ := (Lineage.flattenAll_ok stages.flattenClasses).mem_right known
  obtain ⟨mark, item, found⟩ := exists_raw computed
  have distinct := (Value.keyed_object.mp (keyed.of_get? found)).distinct
  refine ⟨mark, item, found, Entity.comesFrom_of_ofFields reads fun field own => ?_⟩
  have free : ∀ field ∈ Lineage.ownKeys,
      field ∉ (["attributes", "profiles"] : List Text) ∧ field ∉ Draft.identifiers := by decide
  rw [beside field (free field own).1, sameBut field (free field own).2,
    computed.get?_ownKey found distinct own]

private theorem object_comesFrom (keyed : Value.Keyed (.record stages.rawObjects)) {entry : Text × Entity}
    (member : entry ∈ graph.objects) :
    ∃ mark item, Entries.get? entry.1 stages.rawObjects = some (.object mark item) ∧
      entry.2.ComesFrom item := by
  obtain ⟨_, _, read⟩ := Draft.graph_ok stages.reading
  obtain ⟨result, held, reads⟩ := read.mem_right member
  obtain ⟨_, _, _, finished, _, finishes⟩ := Draft.finish_ok stages.finishing
  have objects : stages.finished.objects = _ := congrArg Draft.objects finished
  obtain ⟨required, known, finishing⟩ := finishes.mem_right (objects ▸ held)
  obtain ⟨flat, shown, beside⟩ := stages.related_objects.mem_right known
  obtain ⟨_, _, computed⟩ := (Lineage.flattenAll_ok stages.flattenObjects).mem_right
    (List.mem_of_mem_filter shown)
  obtain ⟨mark, item, found⟩ := exists_raw computed
  have distinct := (Value.keyed_object.mp (keyed.of_get? found)).distinct
  refine ⟨mark, item, found, Entity.comesFrom_of_ofFields reads fun field own => ?_⟩
  have free : ∀ field ∈ Lineage.ownKeys, field ≠ "attributes" ∧ field ∉ builtKeys := by decide
  rw [(Draft.finishItem_ok finishing).2 field (free field own).1, beside field (free field own).2,
    computed.get?_ownKey found distinct own]

end Stages

structure Graph.Accounts (graph : Graph) (d : Definitions) : Prop where
  listed : ∀ kind, graph.listed kind = Entries.keys (d.items kind).inner
  hidden : ∀ kind, ∀ entry ∈ graph.hierarchy kind, Entries.has entry.1 (graph.entities kind) = false ↔
    Entries.get? "hidden?" entry.2 = some (.bool true)
  entities : ∀ kind, ∀ entry ∈ graph.entities kind, ∃ mark item,
    Entries.get? entry.1 (d.items kind).inner = some (.object mark item) ∧ entry.2.ComesFrom item
  records : ∀ entry ∈ graph.profiles, ∃ mark item,
    (entry.1, Value.object mark item) ∈ d.profiles.inner ∧ entry.2.ComesFrom item

theorem Graph.accounts {d : Definitions} {graph : Graph} (keyed : d.Keyed)
    (built : (Graph.ofDefinitions d).Yields graph) : graph.Accounts d := by
  obtain ⟨stages⟩ := exists_stages built
  have classes := keyed.classes.asFields stages.readClasses
  have objects := keyed.objects.asFields stages.readObjects
  obtain ⟨named, opened, profiles⟩ := stages.related_profiles
  obtain ⟨own, shape⟩ := Value.inner_of_asFields opened
  obtain ⟨allClasses, allObjects⟩ := stages.keys_hierarchy
  rw [← stages.inner_rawClasses] at allClasses
  rw [← stages.inner_rawObjects] at allObjects
  exact {
    listed := by
      intro kind
      cases kind with
      | eventClass => exact allClasses
      | object => exact allObjects
      | profile => exact profiles.keys_eq.trans (congrArg (Entries.keys ∘ Value.inner) shape.symm)
    hidden := fun kind => stages.missing_iff_hidden classes.distinct objects.distinct kind
    entities := by
      intro kind entry member
      cases kind with
      | eventClass => exact stages.inner_rawClasses ▸ stages.class_comesFrom classes member
      | object => exact stages.inner_rawObjects ▸ stages.object_comesFrom objects member
      | profile => cases member
    records := by
      intro entry member
      obtain ⟨value, known, mark, item, whole, missing, last, rfl, requiring, finishing, read⟩ :=
        profiles.mem_right member
      obtain ⟨attributes, _, made⟩ := Profile.ofFields_ok.mp read
      have same {field : Text} (other : field ≠ "attributes") :
          Entries.get? field last = Entries.get? field item :=
        ((Draft.finishItem_ok finishing).2 field other).trans ((Draft.attributes_requireItem requiring).2 field other)
      refine ⟨mark, item, shape ▸ known, ?_, ?_⟩
      · rw [made]
        exact (Entries.get?_beside _ _ _).trans ((if_neg (by decide)).trans (same (by decide)))
      · rw [made]
        exact Entries.orNull_congr (same (by decide)) }

end EventSchema
