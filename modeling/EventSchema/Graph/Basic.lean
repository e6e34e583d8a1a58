import EventSchema.Draft.Links
import EventSchema.Record.Attribute
import EventSchema.Record.Category

/-!
The graph of a schema: its finished items, what they share, and how they refer to each other.

Categories, classes, objects and profiles are under their keys, plain names for what the base schema
defines and scoped ones for what an extension does. The hierarchies list every class and object, the
hidden ones too, by their place among the others.
-/

set_option autoImplicit false

namespace EventSchema

structure Graph where
  version : Value
  categories : Entries Category
  dictionary : Dictionary
  classes : Entries Entity
  objects : Entries Entity
  profiles : Entries Profile
  extensions : Entries Extension
  allClasses : Entries Fields
  allObjects : Entries Fields
  links : Links

namespace Graph

def shapeVersion : Int := 1

def records {α : Type} (toFields : α → Fields) (entries : Entries α) : Value :=
  .record (Entries.mapValues (fun item => .record (toFields item)) entries)

def linkList (links : List Link) : Value := .array (links.map fun link => .record link.toFields)

def indexFields {α : Type} (toValue : α → Value) (index : Index α) : Except Fault Value := do
  return .record (← index.mapM fun entry => do return (← entry.1.keyText, toValue entry.2))

def toFields (g : Graph) : Except Fault Fields := do
  let objectLinks ← indexFields (fun links => linkList (Entries.values links)) g.links.objects
  let attributeLinks := Value.record (Entries.mapValues linkList g.links.attributes)
  let profileLinks ← indexFields linkList g.links.profiles
  return [
    ("categories", records Category.toFields g.categories),
    ("dictionary", .record g.dictionary.toFields),
    ("classes", records Entity.toFields g.classes),
    ("objects", records Entity.toFields g.objects),
    ("profiles", records Profile.toFields g.profiles),
    ("extensions", records Extension.toFields g.extensions),
    ("all_classes", records id g.allClasses),
    ("all_objects", records id g.allObjects),
    ("links", .record
      [("objects", objectLinks), ("attributes", attributeLinks), ("profiles", profileLinks)]),
    ("version", g.version),
    ("compile_version", .int shapeVersion)]

end Graph

end EventSchema
