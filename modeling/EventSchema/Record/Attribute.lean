import EventSchema.Json.Writer
import EventSchema.Value.Access

/-!
Attributes of a compiled schema, and its dictionary.

A record has a place for each field that the schema language knows; a field that is missing is null.
Fields that it does not know are kept as they are among the extras. A value taken as a record is an
object, which gives its fields, or a list of pairs: each a list, an object or a text of two parts, the
first part being the key.
-/

set_option autoImplicit false

namespace EventSchema

namespace Value

def keyText : Value → Except Fault Text
  | null => .ok "null"
  | bool true => .ok "true"
  | bool false => .ok "false"
  | int n => .ok (Text.ofInt n)
  | float x => .ok (Json.writeDouble x)
  | text t => .ok t
  | _ => misused .operand

def asPair (item : Value) : Except Fault (Text × Value) := do
  match ← item.iterate with
  | [key, value] => return (← key.keyText, value)
  | _ => misused .content

def asRecord : Value → Except Fault Fields
  | object _ fields => .ok fields
  | value => do return Entries.ofList (← (← value.iterate).mapM asPair)

end Value

def Entries.beside (known : List Text) (fields : Fields) : Fields :=
  fields.filter fun entry => !known.contains entry.1

def Entries.present (fields : Fields) : Fields := fields.filter fun entry => !entry.2.isNull

structure Attribute where
  name : Text
  type : Value
  objectType : Value
  requirement : Value
  caption : Value
  description : Value
  enum : Value
  isArray : Value
  profile : Value
  group : Value
  deprecated : Value
  observable : Value
  range : Value
  maxLen : Value
  regex : Value
  sibling : Value
  typeName : Value
  objectName : Value
  extension : Value
  extensionId : Value
  source : Value
  sourcePatched : Value
  extras : Fields

namespace Attribute

def knownKeys : List Text :=
  ["type", "object_type", "requirement", "caption", "description", "enum", "is_array", "profile",
    "group", "@deprecated", "observable", "range", "max_len", "regex", "sibling", "type_name",
    "object_name", "extension", "extension_id", "_source", "_source_patched"]

def ofFields (name : Text) (fields : Fields) : Attribute where
  name := name
  type := Entries.orNull "type" fields
  objectType := Entries.orNull "object_type" fields
  requirement := Entries.orNull "requirement" fields
  caption := Entries.orNull "caption" fields
  description := Entries.orNull "description" fields
  enum := Entries.orNull "enum" fields
  isArray := Entries.orNull "is_array" fields
  profile := Entries.orNull "profile" fields
  group := Entries.orNull "group" fields
  deprecated := Entries.orNull "@deprecated" fields
  observable := Entries.orNull "observable" fields
  range := Entries.orNull "range" fields
  maxLen := Entries.orNull "max_len" fields
  regex := Entries.orNull "regex" fields
  sibling := Entries.orNull "sibling" fields
  typeName := Entries.orNull "type_name" fields
  objectName := Entries.orNull "object_name" fields
  extension := Entries.orNull "extension" fields
  extensionId := Entries.orNull "extension_id" fields
  source := Entries.orNull "_source" fields
  sourcePatched := Entries.orNull "_source_patched" fields
  extras := Entries.beside knownKeys fields

/-- The known fields that are set, then the extras. -/
def toFields (a : Attribute) : Fields :=
  Entries.present
    [("type", a.type), ("object_type", a.objectType), ("requirement", a.requirement),
      ("caption", a.caption), ("description", a.description), ("enum", a.enum),
      ("is_array", a.isArray), ("profile", a.profile), ("group", a.group),
      ("@deprecated", a.deprecated), ("observable", a.observable), ("range", a.range),
      ("max_len", a.maxLen), ("regex", a.regex), ("sibling", a.sibling),
      ("type_name", a.typeName), ("object_name", a.objectName), ("extension", a.extension),
      ("extension_id", a.extensionId), ("_source", a.source),
      ("_source_patched", a.sourcePatched)]
    ++ a.extras

def isObject (a : Attribute) : Bool := a.type.equals (.text "object_t")

/-- The objects among the values as attributes; anything else is left out. -/
def ofValues (attributes : Fields) : Entries Attribute :=
  attributes.filterMap fun entry =>
    match entry.2 with
    | .object _ fields => some (entry.1, ofFields entry.1 fields)
    | _ => none

def ofDocument (attributes : Option Value) : Except Fault (Entries Attribute) :=
  ofValues <$> Value.fieldsOrNone attributes

def toValues (attributes : Entries Attribute) : Fields :=
  Entries.mapValues (fun a => .record a.toFields) attributes

end Attribute

/-- The attributes and the types that the items of a compiled schema share. -/
structure Dictionary where
  attributes : Entries Attribute
  types : Entries Attribute
  extras : Fields

namespace Dictionary

/-- The attributes, the attributes of the types, and every other field of the document. -/
def ofFields (fields : Fields) : Except Fault Dictionary := do
  let attributes ← Attribute.ofDocument (Entries.get? "attributes" fields)
  let types ← Value.fieldsOrNone (Entries.get? "types" fields)
  return {
    attributes
    types := ← Attribute.ofDocument (Entries.get? "attributes" types)
    extras := Entries.beside ["attributes", "types"] fields }

def ofValue (value : Value) : Except Fault Dictionary := do ofFields (← value.asRecord)

def toFields (d : Dictionary) : Fields :=
  let own : Fields :=
    [("attributes", .record (Attribute.toValues d.attributes)),
      ("types", .record [("attributes", .record (Attribute.toValues d.types))])]
  d.extras ++ own

end Dictionary

end EventSchema
