import EventSchema.Proofs.Conservative
import EventSchema.Proofs.Definitions
import EventSchema.Proofs.Graph.ObjectTypes

/-!
Which extension an object type is looked up in.

A plain object type of an attribute means the object of an extension if the attribute was introduced by
an item of that extension. It does not matter who gave the object type: an extension that overrides or
patches an attribute of the base schema does not reach its own objects by their plain names.
-/

set_option autoImplicit false

namespace EventSchema.Settings

/-- Each attribute of a compiled schema has the item that introduced it as its source. Given a plain object
type of which an extension has an object, it refers to that object just if the item is one of the
extension. -/
theorem object_types {s : Settings} {tree : Tree} {graph : Graph} {d : Definitions}
    (compiled : (s.compile tree).Yields graph) (defined : (s.compilation tree).definitions = .ok d)
    (classes : Unsourced d.classes) (objects : Unsourced d.objects) {line : List (Text × Fields)}
    {entity : Entity} (lined : graph.Lined d line entity) {name type scope : Text}
    (last : Lineage.objectTypeAlong name line = some (.text type)) (given : (Value.text type).truthy = true)
    (plain : type.hasSlash = false) (asked : (Value.text scope).truthy = true)
    (present : Entries.has (Scope.within scope type) graph.objects = true) :
    ∃ source record, Lineage.introducedAlong name line = some source ∧
      Entries.get? name entity.attributes = some record ∧ record.source = .text source ∧
      ((record.type = .text "object_t" ∧ record.objectType = .text (Scope.within scope type)) ↔
        source.hasSlash = true ∧ source.beforeSlash = scope) := by
  obtain ⟨steps⟩ := exists_steps compiled
  cases steps.definitions_eq defined
  have authored := steps.authored classes objects
  obtain ⟨source, introduced⟩ := Lineage.exists_introducedAlong last
  obtain ⟨record, found, means⟩ := Graph.means_of_lined authored.classes authored.objects steps.building
    lined introduced last given plain
  exact ⟨source, record, introduced, found, means.introduced, means.iff plain asked present⟩

/-! ### One object of an extension, named by an item of it and by a patch -/

def badged : Value := .record [("pass", .record [("object_type", .text "badge")])]

/-- An extension with an object `badge`, and what it says of the `user` of the base schema: under a name,
it is another object that extends the user, and without one a patch. -/
def badgeTree (name : Fields) : Tree :=
  .ofDocuments [
    (["schema", "categories.json"], [("attributes", .record [])]),
    (["schema", "dictionary.json"], [("attributes", .record [])]),
    (["schema", "events", "base_event.json"], [("name", .text "base_event")]),
    (["schema", "objects", "user.json"], [("name", .text "user")]),
    (["corp", "extension.json"], [("name", .text "corp"), ("uid", .int 7)]),
    (["corp", "objects", "badge.json"], [("name", .text "badge")]),
    (["corp", "objects", "people", "user.json"],
      ("extends", .text "user") :: ("attributes", badged) :: name)]

def badgeClasses : Value := .record [("base_event", .record [
  ("name", .text "base_event"), ("_origin", .text "/schema/events/base_event.json")])]

def ofCorp (file : Text) (item : Fields) : Fields :=
  item ++ ([("_origin", .text file), ("extension", .text "corp"), ("extension_id", .int 7)] : Fields)

def userItem : Fields := [("name", .text "user"), ("_origin", .text "/schema/objects/user.json")]

def badgeItem : Fields := ofCorp "/corp/objects/badge.json" [("name", .text "badge")]

def employeeItem : Fields := ofCorp "/corp/objects/people/user.json" [
  ("extends", .text "user"), ("attributes", badged), ("name", .text "employee")]

def patchedItem : Fields := userItem ++ ([
  ("attributes", .record [("pass", .record [
    ("object_type", .text "badge"), ("_source_patched", .text "corp/user")])]),
  ("_patched_by", .array [.text "corp"])] : Fields)

def employeeItems : Fields := [
  ("user", .record userItem), ("corp/badge", .record badgeItem), ("corp/employee", .record employeeItem)]

def patchedItems : Fields := [("user", .record patchedItem), ("corp/badge", .record badgeItem)]

/-- Whether the graph has an object `badge` of the extension, and the source of an attribute with the
object that it refers to. -/
def passOf (key : Text) (graph : Graph) : Bool × Option (Value × Value × Value) :=
  (Entries.has "corp/badge" graph.objects, do
    let entity ← Entries.get? key graph.objects
    let record ← Entries.get? "pass" entity.attributes
    return (record.source, record.type, record.objectType))

private theorem passOf_eq {key : Text} {graph : Graph} {present : Bool} {source type object : Value}
    (shown : passOf key graph = (present, some (source, type, object))) :
    Entries.has "corp/badge" graph.objects = present ∧ ∃ entity record,
      Entries.get? key graph.objects = some entity ∧ Entries.get? "pass" entity.attributes = some record ∧
      record.objectType = object := by
  obtain ⟨present, shown⟩ := Prod.mk.inj shown
  obtain ⟨entity, found, shown⟩ := Option.bind_eq_some_iff.mp shown
  obtain ⟨record, held, shown⟩ := Option.bind_eq_some_iff.mp shown
  cases shown
  exact ⟨present, entity, record, found, held, rfl⟩

theorem object_types_introduced :
    ∃ graph d entity record, (withCorp.compile (badgeTree [("name", .text "employee")])).Yields graph ∧
      (withCorp.compilation (badgeTree [("name", .text "employee")])).definitions = .ok d ∧
      graph.Lined d [("corp/employee", employeeItem), ("user", userItem)] entity ∧
      Entries.get? "pass" entity.attributes = some record ∧
      record.type = .text "object_t" ∧ record.objectType = .text "corp/badge" := by
  have evaluated : ((withCorp.compile (badgeTree [("name", .text "employee")])).outcome {}).1.toOption.map
      (passOf "corp/employee") =
        some (true, some (.text "corp/employee", .text "object_t", .text "corp/badge")) := by
    decide +kernel
  have known : (withCorp.compilation (badgeTree [("name", .text "employee")])).definitions.toOption.map
      (fun d => (d.classes, d.objects)) = some (badgeClasses, .record employeeItems) := by
    decide +kernel
  obtain ⟨graph, compiled, shown⟩ := Act.exists_of_outcome evaluated
  obtain ⟨present, entity, record, found, held, _⟩ := passOf_eq shown
  obtain ⟨d, defined, same⟩ := Option.map_eq_some_iff.mp known
  obtain ⟨classes, objects⟩ := Prod.mk.inj same
  have defined := toOption_eq_some.mp defined
  have ancestry : Lineage.Ancestry employeeItems [("corp/employee", employeeItem), ("user", userItem)] :=
    .child rfl rfl rfl (.root rfl (Or.inr rfl))
  have lined : graph.Lined d [("corp/employee", employeeItem), ("user", userItem)] entity :=
    .object (objects ▸ rfl) ancestry found
  have last : Lineage.objectTypeAlong "pass" [("corp/employee", employeeItem), ("user", userItem)] =
      some (.text "badge") := rfl
  have asked : (Value.text "corp").truthy = true := by decide
  obtain ⟨source, other, introduced, held', _, means⟩ := object_types compiled defined
    (classes ▸ by decide +kernel) (objects ▸ by decide +kernel) lined last (by decide) (by decide) asked
    present
  cases held.symm.trans held'
  cases introduced
  obtain ⟨type, object⟩ := means.mpr (by decide)
  exact ⟨graph, d, entity, record, compiled, defined, lined, held, type, object⟩

/-- The patch gives the user an attribute of the object type `badge`. But the user counts as the item
that introduces the attribute, so the badge of the extension is not looked for. -/
theorem object_types_patched :
    ∃ graph d entity record, (withCorp.compile (badgeTree [])).Yields graph ∧
      (withCorp.compilation (badgeTree [])).definitions = .ok d ∧
      graph.Lined d [("user", patchedItem)] entity ∧
      Lineage.objectTypeAlong "pass" [("user", userItem)] = none ∧
      Lineage.objectTypeAlong "pass" [("user", patchedItem)] = some (.text "badge") ∧
      Entries.has "corp/badge" graph.objects = true ∧
      Entries.get? "pass" entity.attributes = some record ∧ record.objectType ≠ .text "corp/badge" := by
  have evaluated : ((withCorp.compile (badgeTree [])).outcome {}).1.toOption.map (passOf "user") =
      some (true, some (.text "user", .null, .text "badge")) := by
    decide +kernel
  have known : (withCorp.compilation (badgeTree [])).definitions.toOption.map (fun d => d.objects) =
      some (.record patchedItems) := by
    decide +kernel
  obtain ⟨graph, compiled, shown⟩ := Act.exists_of_outcome evaluated
  obtain ⟨present, entity, record, found, held, object⟩ := passOf_eq shown
  obtain ⟨d, defined, objects⟩ := Option.map_eq_some_iff.mp known
  have ancestry : Lineage.Ancestry patchedItems [("user", patchedItem)] := .root rfl (Or.inr rfl)
  refine ⟨graph, d, entity, record, compiled, toOption_eq_some.mp defined,
    .object (objects ▸ rfl) ancestry found, rfl, rfl, present, held, ?_⟩
  rw [object]
  decide

end EventSchema.Settings
