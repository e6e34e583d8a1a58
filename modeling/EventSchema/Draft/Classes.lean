import EventSchema.Draft.Basic
import EventSchema.Text.Numeral
import EventSchema.Uid
import EventSchema.Value.Sharing

/-!
Classes with their identifiers.

A class has a category, which its uid is scoped by, and activities, whose identifiers are scoped by
the class in turn. The attributes that carry these identifiers in an event list the values that they
can have there.
-/

set_option autoImplicit false

namespace EventSchema.Draft

/-- The category of a class: its key and what is known of it, if that is anything. -/
def categoryOf (draft : Draft) (item : Fields) : Except Fault (Option (Value × Value)) := do
  let name := Entries.orNull "category" item
  let found ← Scope.findIn draft.categories name (Entries.get? "extension" item)
  match found with
  | none => return none
  | some key =>
    let categories ← draft.categories.asFields
    let category := Value.ofOption (← key.lookup? categories)
    return if category.truthy then some (key, category) else none

/-- The local uid of a class. One that is no whole number below a thousand is reported, and zero
stands for it. -/
def localUid (key : Text) (item : Fields) : Act Value := do
  let uid := Entries.getOr "uid" item (.int 0)
  match uid.whole? with
  | some n =>
    if 0 ≤ n ∧ n < 1000 then return uid
    else
      complain (.invalidUid key uid)
      return .int 0
  | none =>
    complain (.invalidUid key uid)
    return .int 0

/-- The entry of an activity among the types of events of a class. -/
def typeEntry (caption : Value) (detail : Value) : Except Fault Value := do
  let fields ← detail.unshared.asFields
  let activity := Entries.getOr "caption" fields (.text "<unknown>")
  return .record
    (Entries.put "caption" (.text (caption.shown ++ ": " ++ activity.shown)) fields)

/-- The types of events with one for an activity, which is reported and left out if its key is no
number or one out of range. -/
def addActivity (key : Text) (uid caption : Value) (types : Fields) (activity : Text × Value) :
    Act Fields := do
  match activity.1.parseInt? with
  | none =>
    warn (.activityNotNumeric key activity.1)
    return types
  | some n =>
    if 0 ≤ n ∧ n < 100 then
      let entry ← typeEntry caption activity.2
      let id ← Uid.activity uid (.int n)
      return Entries.put id.shown entry types
    else
      warn (.activityOutOfRange key n)
      return types

def listTypes (key : Text) (uid caption : Value) (attributes : Fields) : Act Fields := do
  let activities :=
    Value.orElse (Entries.get? "activity_id" attributes) (Entries.orNull "disposition_id" attributes)
  let enumeration ←
    if activities.truthy then
      pure (Entries.orNull "enum" (← activities.asFields))
    else pure .null
  let types ←
    if enumeration.truthy then
      (← enumeration.asFields).foldlM (addActivity key uid caption) []
    else do
      warn (.noActivities key)
      pure []
  let unknown ← (Uid.activity uid (.int 0) : Except Fault Value)
  let types := Entries.put unknown.shown
    (.record [("caption", .text (caption.shown ++ ": Unknown"))]) types
  return setSource "type_uid" key (← setIn "type_uid" "enum" (.record types) attributes)

/-- A note of the value that an attribute names, in its description. -/
def named (what : Text) (value : Value) : Value :=
  .text (what ++ ": <code>" ++ value.shown ++ "</code>.")

def listClass (key : Text) (uid caption description : Value) (attributes : Fields) :
    Except Fault Fields := do
  let enumeration :=
    Value.record [(uid.shown, .record [("caption", caption), ("description", description)])]
  let attributes := setSource "class_uid" key (← setIn "class_uid" "enum" enumeration attributes)
  setIn "class_name" "description"
    (named "The event class name, as defined by class_uid value" caption) attributes

def listCategory (key : Text) (uid category : Value) (attributes : Fields) :
    Except Fault Fields := do
  let enumeration := Value.record [(uid.shown, category.unshared)]
  let attributes :=
    setSource "category_uid" key (← setIn "category_uid" "enum" enumeration attributes)
  let caption := Entries.getOr "caption" (← category.asFields) (.text ∅)
  setIn "category_name" "description"
    (named "The event category name, as defined by category_uid value" caption) attributes

def reportCategory (key : Text) (name : Value) (item : Fields) : Act Fields := do
  if name.equals (.text "other") then
    note (.otherCategory key)
    return Entries.put "category_uid" (.int 0) item
  else if name.isNull then
    if key ≠ "base_event" then warn (.noCategory key)
    return item
  else
    warn (.undefinedCategory key name)
    return item

def identify (draft : Draft) (key : Text) (item : Fields) : Act Fields := do
  let caption := Entries.getOr "caption" item (.text "UNKNOWN")
  let name := Entries.orNull "category" item
  let item := Entries.putNew "attributes" (.record []) item
  let category ← (categoryOf draft item : Except Fault (Option (Value × Value)))
  let (item, categoryUid) ← match category with
    | some (categoryKey, category) => do
      let fields ← category.asFields
      let item := Entries.put "category_name" (Entries.orNull "caption" fields)
        (Entries.put "category" categoryKey item)
      pure (item, Entries.getOr "uid" fields (.int 0))
    | none => pure (item, Value.int 0)
  let own ← localUid key item
  let outer ← (Uid.categoryOfClass (Entries.orNull "extension_id" item) categoryUid :
    Except Fault Value)
  let uid ← (Uid.eventClass outer own : Except Fault Value)
  let item := Entries.put "uid" uid item
  let attributes ← listTypes key uid caption (← attributesOf item)
  let description := Entries.getOr "description" item (.text ∅)
  let attributes ← (listClass key uid caption description attributes : Except Fault Fields)
  match category with
  | some (_, category) =>
    let item := Entries.put "category_uid" categoryUid item
    let attributes ← (listCategory key categoryUid category attributes : Except Fault Fields)
    return Entries.put "attributes" (.record attributes) item
  | none => reportCategory key name (Entries.put "attributes" (.record attributes) item)

def identifyClasses (draft : Draft) : Act Draft := do
  let classes ← draft.classes.mapM fun entry => do
    return (entry.1, ← identify draft entry.1 entry.2)
  return { draft with classes }

end EventSchema.Draft
