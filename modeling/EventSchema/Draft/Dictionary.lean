import EventSchema.Draft.Basic
import EventSchema.Value.Sharing

/-!
The attributes of the dictionary with their types resolved.

An attribute is of a type of the dictionary, or it refers to an object, by its own type or by its
object type. An attribute of an extension means that extension's object before one of the base
schema. A timestamp gets a sibling with a date and time if the schema has what those need.
-/

set_option autoImplicit false

namespace EventSchema.Draft

def dictionaryContext (name : Text) (field : Fields) : Text :=
  let context := "Dictionary attribute " ++ name.enclosed
  match Entries.get? "extension" field with
  | some extension => context ++ " from extension " ++ extension.enclosed
  | none => context

/-- An attribute of the dictionary with its type named, or with the object that it refers to. -/
def resolveType (draft : Draft) (name : Text) (value : Value) : Act Value := do
  let field ← value.asFields
  let type := Entries.orNull "type" field
  if type.isNull then
    warn (.fieldWithoutType (dictionaryContext name field))
    return value
  match ← (type.lookup? draft.types : Except Fault (Option Value)) with
  | some definition =>
    let caption := Entries.getOr "caption" (← definition.asFields) (.text ∅)
    return .record (Entries.put "type_name" caption field)
  | none =>
    let object := if type.equals (.text "object_t") then Entries.orNull "object_type" field else type
    let found ← (Scope.find? draft.objects object (Entries.get? "extension" field) :
      Except Fault (Option Value))
    match found with
    | some key => return .record (← refer draft.objects key field)
    | none =>
      warn (.undefinedType (dictionaryContext name field) object)
      return value

def datetimeSibling? (types : Fields) (entry : Text × Value) :
    Except Fault (Option (Text × Value)) := do
  let field ← entry.2.unshared.asFields
  if (Entries.orNull "type" field).equals (.text "timestamp_t") then
    let definition ← (Entries.orNull "datetime_t" types).asFields
    let caption := Entries.getOr "caption" definition (.text "Datetime")
    let sibling := Entries.put "type_name" caption (Entries.put "type" (.text "datetime_t") field)
    return some (datetimeName entry.1, .record sibling)
  else return none

def resolveDictionary (draft : Draft) : Act Draft := do
  let attributes ← draft.attributes.mapM fun entry => do
    return (entry.1, ← resolveType draft entry.1 entry.2)
  if ← (draft.datetimeEnabled : Except Fault Bool) then
    note .datetimeEnabled
    let siblings ← (attributes.filterMapM (datetimeSibling? draft.types) :
      Except Fault (List (Text × Value)))
    return { draft with
      attributes := siblings.foldl (fun all sibling => Entries.putNew sibling.1 sibling.2 all)
        attributes }
  else return { draft with attributes }

end EventSchema.Draft
