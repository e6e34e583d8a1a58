import EventSchema.Run
import EventSchema.Scope
import EventSchema.Value.Access
import EventSchema.Value.Sharing

/-!
Flattening of items that extend one another.

Items are kept under their keys. A flattened item has everything that its ancestors define and it does
not redefine: attributes field by field, profiles and observables joined, any other field from the
nearest item that has it. An attribute set to null is taken out. Every attribute names the key of the
item that introduced it.

A parent is flattened before its children and every item once. An item whose parent is nowhere keeps
its own definition and is reported once; items that extend each other in a cycle stop the run. Each
step up leaves one key fewer that is not being flattened, so the way up ends.
-/

set_option autoImplicit false

namespace EventSchema

namespace Lineage

/-- Where an item comes from; a child takes none of this from its parent. -/
def ownKeys : List Text := ["extension", "extension_id", "_origin", "_patched_by"]

/-- The key of the parent of an item, if it has one among the items: its own extension's when the
parent is named without a scope, or else the one of exactly that name. An item is not its own parent
by being named like it. -/
def findParent (items : Fields) (key : Text) (item : Value) : Except Fault (Option Text) := do
  let fields ← item.asFields
  match Entries.get? "extends" fields with
  | none => return none
  | some parent =>
    if !parent.truthy then return none
    let slash := Value.text "/"
    match Entries.get? "extension" fields with
    | some extension =>
      if extension.truthy then
        if !(← slash.member parent) then
          let own := Scope.within extension.shown parent.shown
          if own ≠ key && Entries.has own items then return some own
    | none => pure ()
    let _ ← slash.member parent
    if ← parent.isEntry items then return parent.text? else return none

def kept (attributes : Fields) : Fields := attributes.filter fun entry => !entry.2.isNull

def sourced (key : Text) : Value → Value
  | .object mark fields => .object mark (Entries.putNew "_source" (.text key) fields)
  | value => value

def standalone (key : Text) (item : Fields) : Except Fault Fields := do
  let attributes ← Value.fieldsOrNone (Entries.get? "attributes" item)
  return Entries.put "attributes" (.record (Entries.mapValues (sourced key) (kept attributes))) item

/-- A child's field over what the parent's copy has so far. Attributes are left to `override`. -/
def takeField (parent : Fields) (taken : Fields) (key : Text) (value : Value) :
    Except Fault Fields :=
  if key = "attributes" then .ok taken
  else if key = "profiles" then do
    let profiles ← mergeProfiles [Entries.get? "profiles" parent, some value]
    return Entries.put "profiles" (.array profiles) taken
  else if key = "observables" then
    match Entries.get? "observables" taken with
    | some (.object mark observables) =>
      if value.isObject then
        .ok (Entries.put "observables" (Value.merge (.object mark observables) value) taken)
      else .ok taken
    | _ => .ok (Entries.put key value taken)
  else .ok (Entries.put key value taken)

/-- A child's attribute over the inherited ones. The source of an inherited attribute stays. -/
def override (key : Text) (inherited : Value) (name : Text) (value : Value) : Except Fault Value := do
  let fields ← inherited.asFields
  match Entries.get? name fields, value with
  | some (.object mark base), .object _ _ =>
    let merged := Value.merge (.object mark base) value.unshared
    let merged := match Entries.get? "_source" base, merged with
      | some source, .object mark fields =>
        if source.isNull then merged else .object mark (Entries.put "_source" source fields)
      | _, merged => merged
    return .record (Value.putShared name merged fields)
  | _, .object _ _ => return .record (Entries.put name (sourced key value.unshared) fields)
  | _, value => return .record (Entries.put name value fields)

def descend (kind : ItemKind) (key : Text) (parent item : Fields) : Except Fault Fields := do
  let taken := ownKeys.foldl (fun fields key => Entries.erase key fields) parent
  let inherited := Value.orElse (Entries.get? "attributes" taken) (.record [])
  let taken ← item.foldlM (fun taken entry => takeField parent taken entry.1 entry.2)
    (Entries.erase "attributes" taken)
  let own ← Value.fieldsOrNone (Entries.get? "attributes" item)
  let attributes ← own.foldlM (fun inherited entry => override key inherited entry.1 entry.2)
    inherited
  let flat := Entries.put "attributes" (.record (kept (← attributes.asFields))) taken
  match kind with
  | .object =>
    if Entries.has "observable" item then
      return Entries.put "observable_inherited?" (.bool false) flat
    else if Entries.has "observable" parent then
      return Entries.put "observable_inherited?" (.bool true) flat
    else return flat
  | _ => return flat

/-- An action that also keeps the items flattened so far, by their keys. -/
abbrev Flattening := ExceptT Fault (StateT (Entries Fields) (StateM Run))

instance : MonadLift Act Flattening where
  monadLift act := ExceptT.mk (StateT.lift (ExceptT.run act))

/-- The item marked as flattened, so that a later pass leaves it as it is. -/
def resolved (item : Fields) : Fields := Entries.put "_resolved" (.bool true) item

theorem remaining_lt {keys way : List Text} {key : Text} (present : key ∈ keys)
    (fresh : key ∉ way) :
    (keys.filter (· ∉ way ++ [key])).length < (keys.filter (· ∉ way)).length := by
  have split : keys.filter (· ∉ way ++ [key]) = (keys.filter (· ∉ way)).filter (· ≠ key) := by
    rw [List.filter_filter]
    congr 1
    funext other
    simp [not_or, and_comm]
  rw [split]
  apply List.length_filter_lt_length_iff_exists.mpr
  exact ⟨key, by simp [present, fresh], by simp⟩

/-- The flattened item under a key. `way` holds the keys of the items that wait for it, the first
one first. -/
def flatten (kind : ItemKind) (items : Fields) (way : List Text) (key : Text) :
    Flattening Fields := do
  match Entries.get? key (← getThe (Entries Fields)) with
  | some flat => return flat
  | none =>
    if _ : key ∈ way then
      throw (.integrity (.parentCycle kind.name (way.dropWhile (· ≠ key) ++ [key])))
    else if _ : key ∈ Entries.keys items then
      let item := Entries.orNull key items
      let fields ← item.asFields
      let flat ←
        if Value.given (Entries.get? "_resolved" fields) then pure fields
        else if !Value.given (Entries.get? "extends" fields) then standalone key fields
        else
          match ← findParent items key item with
          | none =>
            leaveUnresolved (.noParent kind key (Entries.orNull "extends" fields))
            pure (resolved (← standalone key fields))
          | some parent =>
            let ancestor ← flatten kind items (way ++ [key]) parent
            note (.resolving kind key parent)
            pure (resolved (← descend kind key ancestor fields))
      modifyThe (Entries Fields) (Entries.put key flat)
      return flat
    else throw (.misuse .key)
termination_by ((Entries.keys items).filter (· ∉ way)).length
decreasing_by exact remaining_lt (by assumption) (by assumption)

def flattenEach (kind : ItemKind) (items : Fields) : Flattening (Entries Fields) :=
  (Entries.keys items).mapM fun key => do return (key, ← flatten kind items [] key)

def flattenAll (kind : ItemKind) (items : Fields) : Act (Entries Fields) :=
  ExceptT.mk (Prod.fst <$> StateT.run (ExceptT.run (flattenEach kind items)) [])

end Lineage

end EventSchema
