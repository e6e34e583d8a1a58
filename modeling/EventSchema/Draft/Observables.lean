import EventSchema.Draft.Basic
import EventSchema.Value.Sharing

/-!
Observables.

A type, an attribute or an object can be marked as observable with an identifier, and an item can give
identifiers to paths of attributes. No identifier may be given twice. They are collected from the raw
definitions, before anything is inherited, and listed in the enumeration of the object `observable`.
-/

set_option autoImplicit false

namespace EventSchema.Draft

def addObservable (known : List Observable) (id caption description : Value) (kind context : Text) :
    Except Fault (List Observable) :=
  let key := id.shown
  match known.find? fun o => o.id = key with
  | some other =>
    .error (.duplicate (.observable key context other.caption (.text other.description)))
  | none =>
    .ok (known ++ [{
      id := key
      caption := caption
      description := "Observable by " ++ kind ++ ".<br>" ++ description.shown }])

def observablesOfDictionary (kind : Text) (known : List Observable) (entries : Fields) :
    Except Fault (List Observable) :=
  entries.foldlM (fun known entry => do
    let (key, detail) := entry
    if ← holds detail "observable" then
      let fields ← detail.asFields
      let caption := Entries.getOr "caption" fields (.text key)
      addObservable known (Entries.orNull "observable" fields) caption
        (Entries.getOr "description" fields caption) kind (kind ++ " " ++ key.enclosed)
    else return known) known

/-- One more key that was asked for a caption leaves fewer keys. -/
theorem remaining_lt {keys seen : List Text} {key : Text} (present : key ∈ keys)
    (fresh : key ∉ seen) :
    (keys.filter (· ∉ key :: seen)).length < (keys.filter (· ∉ seen)).length := by
  have split : keys.filter (· ∉ key :: seen) = (keys.filter (· ∉ seen)).filter (· ≠ key) := by
    rw [List.filter_filter]
    congr 1
    funext other
    simp [not_or]
  rw [split]
  apply List.length_filter_lt_length_iff_exists.mpr
  exact ⟨key, by simp [present, fresh], by simp⟩

/-- The caption of a raw item: its own, or that of the nearest ancestor that has one, or its key.
`seen` holds the keys on the way from it. -/
def captionFrom (items : Fields) (origin : Text) (seen : List Text) (key : Text) :
    Except Fault Value := do
  if _ : key = ∅ ∨ key ∈ seen then return .text origin
  else if _ : key ∈ Entries.keys items then
    let item := Entries.orNull key items
    if ← holds item "caption" then item.at_ "caption"
    else
      let fields ← item.asFields
      let parent ← Scope.find? items (Entries.orNull "extends" fields)
        (Entries.get? "extension" fields)
      match parent with
      | some (.text next) => captionFrom items origin (key :: seen) next
      | _ => return .text origin
  else misused .key
termination_by ((Entries.keys items).filter (· ∉ seen)).length
decreasing_by
  rename_i unseen _
  exact remaining_lt (by assumption) (fun member => unseen (Or.inr member))

def captionOf (items : Fields) (key : Text) : Except Fault Value := captionFrom items key [] key

/-- The observables that an item declares, for itself, its attributes and paths of attributes. -/
def observablesOfItem (kind : ItemKind) (items : Fields) (known : List Observable) (key : Text)
    (item : Value) : Except Fault (List Observable) := do
  let caption ← captionOf items key
  let title := kind.title
  let known ←
    if kind = .object then
      if ← holds item "observable" then
        let id ← item.at_ "observable"
        let fields ← item.asFields
        addObservable known id caption (Entries.getOr "description" fields caption) title
          (title ++ " " ++ key.enclosed)
      else pure known
    else pure known
  let fields ← item.asFields
  let specific (known : List Observable) (part : Text) (id : Value) (context : Text) :
      Except Fault (List Observable) :=
    addObservable known id (.text (caption.shown ++ " " ++ title ++ ": " ++ part))
      (.text (title ++ "-specific attribute " ++ part.enclosed ++ " for the " ++ caption.shown ++ " "
        ++ title ++ "."))
      (title ++ "-Specific Attribute")
      (title ++ " " ++ key.enclosed ++ context ++ part.enclosed)
  let attributes ← Value.fieldsOrNone (Entries.get? "attributes" fields)
  let known ← attributes.foldlM (fun known entry =>
    match entry.2 with
    | .object _ field =>
      match Entries.get? "observable" field with
      | some id => specific known entry.1 id " attribute "
      | none => .ok known
    | _ => .ok known) known
  let paths ← Value.fieldsOrNone (Entries.get? "observables" fields)
  paths.foldlM (fun known entry => specific known entry.1 entry.2 " observables path ") known

def observablesOfItems (kind : ItemKind) (known : List Observable) (items : Value) :
    Except Fault (List Observable) := do
  let items ← items.asFields
  items.foldlM (fun known entry => observablesOfItem kind items known entry.1 entry.2) known

/-- An enumeration with the observables, none of which it may have already. Their captions are copied, since
what they share is shared in another document. -/
def enumerate (observables : List Observable) (enumeration : Value) : Except Fault Value :=
  observables.foldlM (fun enumeration o => do
    if ← holds enumeration o.id then
      throw (.duplicate (.observableEnum o.id o.caption))
    enumeration.withField o.id
      (.record [("caption", o.caption.unshared), ("description", .text o.description)])) enumeration

def listObservables (draft : Draft) : Act Draft := do
  match Entries.get? "observable" draft.objects with
  | none =>
    if !draft.observables.isEmpty then warn .observablesWithoutObject
    return draft
  | some object =>
    let attributes ← (Entries.orEmpty "attributes" object).asFields
    let ids ← (Entries.orEmpty "type_id" attributes).asFields
    let enumeration ← (enumerate draft.observables (Entries.orEmpty "enum" ids) :
      Except Fault Value)
    let attributes :=
      Value.putShared "type_id" (.record (Entries.put "enum" enumeration ids)) attributes
    let object := Entries.put "attributes" (.record attributes) object
    return { draft with objects := Entries.put "observable" object draft.objects }

end EventSchema.Draft
