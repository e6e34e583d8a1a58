import EventSchema.Draft.Basic
import EventSchema.Value.Sharing

/-!
The attributes of items, checked and finished.

Attributes that the dictionary does not have, deprecated ones and descriptions that ask to be replaced
are reported. An attribute without a requirement is optional. In the end each attribute is merged over
that of the dictionary, and what names an object of the schema names it by its key.
-/

set_option autoImplicit false

namespace EventSchema.Draft

def verify (draft : Draft) (kind : ItemKind) (key : Text) (item : Fields) : Act Unit := do
  let deprecated := Value.given (Entries.get? "@deprecated" item)
  if deprecated then note (.deprecatedItem kind key)
  for entry in ← attributesOf item do
    match Entries.get? entry.1 draft.attributes with
    | none => warn (.undefinedField kind key entry.1)
    | some shared =>
      let shared ← shared.asFields
      if Value.given (Entries.get? "@deprecated" shared) && !deprecated then
        note (.deprecatedField kind key entry.1)
      if !(← holds entry.2 "description") then
        let description := Entries.getOr "description" shared (.text ∅)
        if ← holds description "See specific usage" then
          warn (.genericDescription kind key entry.1 description)

/-- The attributes of an item with the missing requirements filled in, and the names of those that
had none. -/
def fillRequirements (attributes : Fields) : Except Fault (Fields × List Text) := do
  let filled ← attributes.mapM fun entry => do
    let field ← entry.2.asFields
    if (Entries.orNull "requirement" field).isNull then
      let value := Value.record (Entries.put "requirement" (.text "optional") field)
      return ((entry.1, value), some entry.1)
    else return (entry, none)
  return (filled.map Prod.fst, filled.filterMap Prod.snd)

/-- An item with the missing requirements filled in, and how a notice names it if there were any. -/
def requireItem (kind : ItemKind) (key : Text) (item : Fields) :
    Except Fault (Fields × Option Text) := do
  match Entries.get? "attributes" item with
  | none => return (item, none)
  | some attributes =>
    let (filled, names) ← fillRequirements (← attributes.asFields)
    let item := Entries.put "attributes" (.record filled) item
    if names.isEmpty then return (item, none)
    else
      let listed := Text.join ", " (Text.sort (names.map Text.enclosed))
      return (item, some (kind.name ++ " " ++ key.enclosed ++ " attribute(s): " ++ listed))

/-- Items with the missing requirements filled in, and how a notice names those that had some. -/
def requireItems (kind : ItemKind) (items : Entries Fields) :
    Except Fault (Entries Fields × List Text) := do
  let done ← items.mapM fun entry => do
    let (item, missing) ← requireItem kind entry.1 entry.2
    return ((entry.1, item), missing)
  return (done.map Prod.fst, done.filterMap Prod.snd)

def profileItems (draft : Draft) : Except Fault (Entries Fields) := do
  (← draft.profiles.asFields).mapM fun entry => do return (entry.1, ← entry.2.asFields)

def requireAll (draft : Draft) : Act Draft := do
  let named ← (draft.profiles.asFields : Except Fault Fields)
  let doneProfiles ← (named.mapM fun entry => do
    let (item, missing) ← requireItem .profile entry.1 (← entry.2.asFields)
    return ((entry.1, item), missing) : Except Fault (List ((Text × Fields) × Option Text)))
  let profiles := doneProfiles.map fun entry => (entry.1.1, Value.record entry.1.2)
  let (classes, inClasses) ← (requireItems .eventClass draft.classes :
    Except Fault (Entries Fields × List Text))
  let (objects, inObjects) ← (requireItems .object draft.objects :
    Except Fault (Entries Fields × List Text))
  let missing := doneProfiles.filterMap Prod.snd ++ inClasses ++ inObjects
  if !missing.isEmpty then warn (.requirementsFilled (Text.sort missing))
  return { draft with profiles := .record profiles, classes, objects }

/-- An attribute over that of the dictionary, its object type named by the key of the object that the
item means. -/
def finishAttribute (draft : Draft) (item : Fields) (name : Text) (value : Value) :
    Except Fault Value := do
  let merged := match Entries.get? name draft.attributes with
    | some shared => Value.mergeInto shared.unshared value
    | none => value
  let field ← value.asFields
  let type := Entries.orNull "object_type" field
  if type.truthy then
    let scope ← extensionOf field item
    match ← Scope.find? draft.objects type (some scope) with
    | some key => return .record (← refer draft.objects key (← merged.asFields))
    | none => return merged
  else return merged

def finishItem (draft : Draft) (item : Fields) : Except Fault Fields := do
  let finished ← (← attributesOf item).mapM fun entry => do
    return (entry.1, ← draft.finishAttribute item entry.1 entry.2)
  return Entries.put "attributes" (.record finished) item

def finishItems (draft : Draft) (items : Entries Fields) : Except Fault (Entries Fields) :=
  items.mapM fun entry => do return (entry.1, ← draft.finishItem entry.2)

/-- The draft with all attributes finished: those of the classes, the objects and the profiles. -/
def finish (draft : Draft) : Except Fault Draft := do
  let classes ← draft.finishItems draft.classes
  let objects ← draft.finishItems draft.objects
  let profiles ← draft.finishItems (← draft.profileItems)
  return { draft with
    classes, objects
    profiles := .record (Entries.mapValues Value.record profiles) }

end EventSchema.Draft
