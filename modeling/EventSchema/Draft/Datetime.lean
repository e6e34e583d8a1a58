import EventSchema.Draft.Basic
import EventSchema.Value.Access
import EventSchema.Value.Sharing

/-!
Siblings of timestamps in classes and objects.

Where the schema has what they need, a timestamp gets a sibling that gives the same moment as a date
and time. The sibling belongs to the profile `datetime`, which the item then has as well.
-/

set_option autoImplicit false

namespace EventSchema.Draft

def typeOf (draft : Draft) (name : Text) (field : Fields) : Except Fault Value := do
  let type := Entries.orNull "type" field
  if type.truthy then return type
  else return Entries.orNull "type" (← (Entries.orEmpty name draft.attributes).asFields)

def siblingOf? (draft : Draft) (attributes : Fields) (entry : Text × Value) :
    Except Fault (Option (Text × Value)) := do
  let field ← entry.2.unshared.asFields
  let type ← draft.typeOf entry.1 field
  let name := datetimeName entry.1
  if type.equals (.text "timestamp_t") && !Entries.has name attributes then
    let sibling := Entries.put "requirement" (.text "optional")
      (Entries.put "profile" (.text "datetime") (Entries.erase "type" field))
    return some (name, .record sibling)
  else return none

def addSiblings (draft : Draft) (item : Fields) : Except Fault Fields := do
  let item := Entries.putNew "attributes" (.record []) item
  let attributes ← attributesOf item
  let siblings ← attributes.filterMapM (draft.siblingOf? attributes)
  if siblings.isEmpty then return item
  else
    let all := siblings.foldl (fun all sibling => Entries.put sibling.1 sibling.2 all) attributes
    let profiles ←
      mergeProfiles [Entries.get? "profiles" item, some (.array [.text "datetime"])]
    return Entries.put "profiles" (.array profiles) (Entries.put "attributes" (.record all) item)

def addSiblingsToEach (draft : Draft) (items : Entries Fields) : Except Fault (Entries Fields) :=
  items.mapM fun entry => do return (entry.1, ← draft.addSiblings entry.2)

def addDatetimeSiblings (draft : Draft) : Except Fault Draft := do
  if ← draft.datetimeEnabled then
    let classes ← draft.addSiblingsToEach draft.classes
    let objects ← draft.addSiblingsToEach draft.objects
    return { draft with classes, objects }
  else return draft

end EventSchema.Draft
