import EventSchema.Draft.Attributes
import EventSchema.Draft.Basic
import EventSchema.Draft.Classes
import EventSchema.Draft.Datetime
import EventSchema.Draft.Dictionary
import EventSchema.Draft.Observables
import EventSchema.Draft.Profiles
import EventSchema.Graph.Basic
import EventSchema.Lineage

/-!
The graph of raw definitions.

Observables are collected before anything is inherited, so that each counts once. Then the items are
flattened, the hidden ones taken out, and what is left is brought into its final form step by step. A
draft in its final form is read into records.
-/

set_option autoImplicit false

namespace EventSchema

def Definitions.dictionaryFields (d : Definitions) : Except Fault (Fields × Fields) :=
  match d.dictionary with
  | .object _ fields =>
    match Entries.get? "attributes" fields with
    | some (.object _ attributes) => .ok (fields, attributes)
    | _ => .error (.integrity .noDictionary)
  | _ => .error (.integrity .noDictionary)

def Definitions.observables (d : Definitions) (types attributes : Fields) :
    Except Fault (List Observable) := do
  let known ← Draft.observablesOfDictionary "Dictionary Type" [] types
  let known ← Draft.observablesOfDictionary "Dictionary Attribute" known attributes
  let known ← Draft.observablesOfItems .eventClass known d.classes
  Draft.observablesOfItems .object known d.objects

def Draft.ofDefinitions (d : Definitions) : Except Fault Draft := do
  let categories := Value.orElse (← d.categories.field? "attributes") (.record [])
  let (fields, attributes) ← d.dictionaryFields
  if !(← Draft.holds d.classes "base_event") then throw (.integrity .noBaseEvent)
  let types ← (Entries.orEmpty "types" fields).asFields
  let types ← (Entries.orEmpty "attributes" types).asFields
  return {
    version := d.version
    extensions := d.extensions
    profiles := d.profiles
    dictionaryExtras := Entries.beside ["attributes", "types"] fields
    observables := ← d.observables types attributes
    categories, attributes, types
    classes := []
    objects := [] }

def Draft.graph (draft : Draft) : Except Fault Graph := do
  let links ← Links.ofItems draft.classes draft.objects
  let entities (kind : ItemKind) (items : Entries Fields) : Except Fault (Entries Entity) :=
    items.mapM fun entry => do return (entry.1, ← Entity.ofFields entry.1 kind entry.2)
  let classes ← entities .eventClass draft.classes
  let objects ← entities .object draft.objects
  let categories ← (← draft.categories.asFields).mapM fun entry => do
    return (entry.1, ← Category.ofValue entry.1 entry.2)
  let profiles ← (← draft.profiles.asFields).mapM fun entry => do
    return (entry.1, ← Profile.ofValue entry.1 entry.2)
  return {
    version := draft.version
    extensions := Entries.ofList (draft.extensions.map fun e => (e.name, e))
    allClasses := draft.allClasses
    allObjects := draft.allObjects
    dictionary := {
      attributes := Attribute.ofValues draft.attributes
      types := Attribute.ofValues draft.types
      extras := draft.dictionaryExtras }
    classes, objects, categories, profiles, links }

def Draft.each (items : Entries Fields) (act : Text → Fields → Act Unit) : Act Unit :=
  items.forM fun entry => act entry.1 entry.2

def Graph.ofDefinitions (d : Definitions) : Act Graph := do
  let draft ← (Draft.ofDefinitions d : Except Fault Draft)
  let classes ← Lineage.flattenAll .eventClass (← d.classes.asFields)
  let objects ← Lineage.flattenAll .object (← d.objects.asFields)
  let draft := ({ draft with classes, objects } : Draft).hideItems
  let draft ← draft.resolveDictionary
  let draft ← draft.identifyClasses
  let draft ← draft.listObservables
  Draft.each draft.classes (draft.checkProfiles .eventClass)
  Draft.each draft.objects (draft.checkProfiles .object)
  let draft ← draft.closeAllProfiles
  let draft ← (draft.addDatetimeSiblings : Except Fault Draft)
  Draft.each draft.classes (draft.verify .eventClass)
  Draft.each draft.objects (draft.verify .object)
  let draft ← draft.requireAll
  let draft ← (draft.finish : Except Fault Draft)
  (draft.graph : Except Fault Graph)

end EventSchema
