import EventSchema.Notice
import EventSchema.Record.Attribute

/-!
Classes and objects of a compiled schema.
-/

set_option autoImplicit false

namespace EventSchema

def recordName (key : Text) (fields : Fields) : Value :=
  Value.orElse (Entries.get? "name" fields) (.text key.afterLastSlash)

def Value.itemsOrNone (value : Option Value) : Except Fault (List Value) :=
  (Value.orElse value (.array [])).iterate

/-- Whether a value of a record, whose lists do not change, can be a member of a set. -/
def Value.isSetMember : Value → Bool
  | .object _ _ => false
  | .array items => items.attach.all fun ⟨item, _⟩ => item.isSetMember
  | _ => true

/-- A class or an object, flattened and finished. -/
structure Entity where
  key : Text
  name : Value
  kind : ItemKind
  caption : Value
  description : Value
  parent : Value
  extension : Value
  extensionId : Value
  uid : Value
  category : Value
  categoryUid : Value
  categoryName : Value
  deprecated : Value
  observable : Value
  observables : Value
  observableInherited : Value
  origin : Value
  extras : Fields
  profiles : List Value
  patchedBy : List Value
  attributes : Entries Attribute

namespace Entity

def knownKeys : List Text :=
  ["caption", "description", "extends", "extension", "extension_id", "uid", "category",
    "category_uid", "category_name", "@deprecated", "observable", "observables",
    "observable_inherited?", "_origin"]

def ownKeys : List Text := ["attributes", "profiles", "_patched_by", "_resolved", "name"]

def ofFields (key : Text) (kind : ItemKind) (fields : Fields) : Except Fault Entity := do
  let profiles ← Value.itemsOrNone (Entries.get? "profiles" fields)
  let attributes ← Attribute.ofDocument (Entries.get? "attributes" fields)
  let patchedBy ← Value.itemsOrNone (Entries.get? "_patched_by" fields)
  return {
    key, kind, profiles, attributes, patchedBy
    name := recordName key fields
    caption := Entries.orNull "caption" fields
    description := Entries.orNull "description" fields
    parent := Entries.orNull "extends" fields
    extension := Entries.orNull "extension" fields
    extensionId := Entries.orNull "extension_id" fields
    uid := Entries.orNull "uid" fields
    category := Entries.orNull "category" fields
    categoryUid := Entries.orNull "category_uid" fields
    categoryName := Entries.orNull "category_name" fields
    deprecated := Entries.orNull "@deprecated" fields
    observable := Entries.orNull "observable" fields
    observables := Entries.orNull "observables" fields
    observableInherited := Entries.orNull "observable_inherited?" fields
    origin := Entries.orNull "_origin" fields
    extras := Entries.beside (ownKeys ++ knownKeys) fields }

def ofValue (key : Text) (kind : ItemKind) (value : Value) : Except Fault Entity := do
  ofFields key kind (← value.asRecord)

def listField (key : Text) (items : List Value) : Fields :=
  if items.isEmpty then [] else [(key, .array items)]

/-- The name, the known fields that are set, the extras, and then the lists and the attributes. -/
def toFields (e : Entity) : Fields :=
  let name : Fields := [("name", e.name)]
  let known : Fields :=
    [("caption", e.caption), ("description", e.description), ("extends", e.parent),
      ("extension", e.extension), ("extension_id", e.extensionId), ("uid", e.uid),
      ("category", e.category), ("category_uid", e.categoryUid),
      ("category_name", e.categoryName), ("@deprecated", e.deprecated),
      ("observable", e.observable), ("observables", e.observables),
      ("observable_inherited?", e.observableInherited), ("_origin", e.origin)]
  let attributes : Fields := [("attributes", .record (Attribute.toValues e.attributes))]
  name ++ Entries.present known ++ e.extras ++ listField "profiles" e.profiles
    ++ listField "_patched_by" e.patchedBy ++ attributes

def isSelected (selected : List Value) (a : Attribute) : Except Fault Bool :=
  if a.profile.isNull then .ok true
  else if a.profile.isSetMember then .ok (a.profile.isAmong selected)
  else misused .operand

/-- The entity as seen with the given profiles selected: an attribute of any other profile is left
out. Nothing given selects every profile. -/
def withProfiles (e : Entity) (profiles : Value) : Except Fault Entity := do
  if profiles.isNull then return e
  let selected ← profiles.iterate
  if !selected.all Value.isKey then misused .operand
  let attributes ← e.attributes.filterM fun entry => isSelected selected entry.2
  if !e.profiles.all Value.isKey then misused .operand
  return { e with
    attributes
    profiles := e.profiles.filter fun profile => profile.isAmong selected }

end Entity

end EventSchema
