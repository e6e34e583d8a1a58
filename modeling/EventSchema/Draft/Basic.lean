import EventSchema.Extension.Basic
import EventSchema.Run
import EventSchema.Scope

/-!
The draft of a schema: its items while they are brought into their final form.

The draft is made from raw definitions, and each module beside this one takes it one step further.
Classes and objects are kept under their keys; profiles and categories stay the values that the
documents give, since only their users look into them.
-/

set_option autoImplicit false

namespace EventSchema

structure Definitions where
  version : Value
  categories : Value
  dictionary : Value
  classes : Value
  objects : Value
  profiles : Value
  extensions : List Extension

structure Observable where
  id : Text
  caption : Value
  description : Text

structure Draft where
  version : Value
  extensions : List Extension
  categories : Value
  profiles : Value
  attributes : Fields
  types : Fields
  dictionaryExtras : Fields
  classes : Entries Fields
  objects : Entries Fields
  observables : List Observable := []
  allClasses : Entries Fields := []
  allObjects : Entries Fields := []

def isHiddenClass (key : Text) (item : Fields) : Bool := key ≠ "base_event" && !Entries.has "uid" item

/-- An object whose name starts with an underscore only serves to be extended. -/
def isHiddenObject (key : Text) : Bool := key.afterLastSlash.startsWith "_"

namespace Draft

def attributesOf (item : Fields) : Except Fault Fields := (Entries.orEmpty "attributes" item).asFields

/-- Whether a value is among the members of another, which is asked as an operand. -/
def holds (container : Value) (key : Text) : Except Fault Bool := (Value.text key).member container

/-- Whether siblings with a date and time are added to timestamps: the schema has the profile and both
types. -/
def datetimeEnabled (draft : Draft) : Except Fault Bool := do
  if ← holds draft.profiles "datetime" then
    return Entries.has "datetime_t" draft.types && Entries.has "timestamp_t" draft.types
  else return false

def datetimeName (name : Text) : Text := name ++ "_dt"

def extensionOf (field item : Fields) : Except Fault Value := do
  let source := Entries.orNull "_source" field
  if source.truthy then
    if ← (Value.text "/").member source then
      match source with
      | .text t => return .text t.beforeSlash
      | _ => misused .member
    else return .null
  else return Value.orElse (Entries.get? "extension" field) (Entries.orNull "extension" item)

/-- An attribute that refers to an object of the schema, which is named by its key and caption. -/
def refer (objects : Entries Fields) (key : Value) (field : Fields) : Except Fault Fields := do
  let object := (← key.lookup? objects).getD []
  return Entries.put "object_name" (Entries.getOr "caption" object (.text ∅))
    (Entries.put "object_type" key (Entries.put "type" (.text "object_t") field))

def setIn (name key : Text) (value : Value) (attributes : Fields) : Except Fault Fields := do
  let changed ← (Entries.orEmpty name attributes).withField key value
  return Entries.put name changed attributes

def setSource (name key : Text) (attributes : Fields) : Fields :=
  match Entries.get? name attributes with
  | some (.object mark fields) =>
    Entries.put name (.object mark (Entries.putNew "_source" (.text key) fields)) attributes
  | _ => attributes

def placeInHierarchy (hidden : Bool) (item : Fields) : Fields :=
  let keys : List Text := ["name", "caption", "extends", "extension"]
  let shown := keys.filterMap fun key => (Entries.get? key item).map fun value => (key, value)
  Entries.put "hidden?" (.bool hidden) shown

def hideItems (draft : Draft) : Draft :=
  { draft with
    allClasses := draft.classes.map fun e => (e.1, placeInHierarchy (isHiddenClass e.1 e.2) e.2)
    allObjects := draft.objects.map fun e => (e.1, placeInHierarchy (isHiddenObject e.1) e.2)
    classes := draft.classes.filter fun e => !isHiddenClass e.1 e.2
    objects := draft.objects.filter fun e => !isHiddenObject e.1 }

end Draft

end EventSchema
