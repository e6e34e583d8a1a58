import EventSchema.Record.Entity

/-!
Categories and profiles of a compiled schema.
-/

set_option autoImplicit false

namespace EventSchema

structure Category where
  key : Text
  name : Value
  uid : Value
  caption : Value
  description : Value
  extension : Value
  extensionId : Value
  extras : Fields

namespace Category

def knownKeys : List Text := ["uid", "caption", "description", "extension", "extension_id"]

def ofFields (key : Text) (fields : Fields) : Category where
  key := key
  name := recordName key fields
  uid := Entries.orNull "uid" fields
  caption := Entries.orNull "caption" fields
  description := Entries.orNull "description" fields
  extension := Entries.orNull "extension" fields
  extensionId := Entries.orNull "extension_id" fields
  extras := Entries.beside ("name" :: knownKeys) fields

def ofValue (key : Text) (value : Value) : Except Fault Category := ofFields key <$> value.asRecord

/-- The name, the known fields that are set, then the extras. -/
def toFields (c : Category) : Fields :=
  let name : Fields := [("name", c.name)]
  let known : Fields :=
    [("uid", c.uid), ("caption", c.caption), ("description", c.description),
      ("extension", c.extension), ("extension_id", c.extensionId)]
  name ++ Entries.present known ++ c.extras

end Category

/-- A profile: attributes that an entity can take on together. -/
structure Profile where
  key : Text
  name : Value
  caption : Value
  description : Value
  extension : Value
  extensionId : Value
  extras : Fields
  attributes : Entries Attribute

namespace Profile

def knownKeys : List Text := ["caption", "description", "extension", "extension_id"]

def ofFields (key : Text) (fields : Fields) : Except Fault Profile := do
  return {
    key
    name := recordName key fields
    caption := Entries.orNull "caption" fields
    description := Entries.orNull "description" fields
    extension := Entries.orNull "extension" fields
    extensionId := Entries.orNull "extension_id" fields
    extras := Entries.beside ("attributes" :: "name" :: knownKeys) fields
    attributes := ← Attribute.ofDocument (Entries.get? "attributes" fields) }

def ofValue (key : Text) (value : Value) : Except Fault Profile := do
  ofFields key (← value.asRecord)

/-- The name, the known fields that are set, the extras, and then the attributes. -/
def toFields (p : Profile) : Fields :=
  let name : Fields := [("name", p.name)]
  let known : Fields :=
    [("caption", p.caption), ("description", p.description), ("extension", p.extension),
      ("extension_id", p.extensionId)]
  let attributes : Fields := [("attributes", .record (Attribute.toValues p.attributes))]
  name ++ Entries.present known ++ p.extras ++ attributes

end Profile

end EventSchema
