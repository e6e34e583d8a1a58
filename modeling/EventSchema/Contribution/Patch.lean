import EventSchema.Contribution.Basic
import EventSchema.Value.Access
import EventSchema.Value.Sharing

/-!
Patches. An extension may change an item of the base schema: its attributes are merged, its profiles
joined, and a few of its fields replaced. Items of another extension cannot be patched, and a patch of
an item that is nowhere is reported and skipped.
-/

set_option autoImplicit false

namespace EventSchema

/-- Patches by the name of the item that they change, in order of their extensions. -/
abbrev Patches := Entries (List Fields)

def Patches.add (name : Text) (patch : Fields) (patches : Patches) : Patches :=
  Entries.put name ((Entries.get? name patches).getD [] ++ [patch]) patches

namespace Patch

def replacedKeys : List Text := ["observable", "observables", "references", "associations"]

/-- A field of the patch in place of the item's, unless it is missing or null. -/
def replace (patch : Fields) (item : Fields) (key : Text) : Fields :=
  match Entries.get? key patch with
  | some value => if value.isNull then item else Entries.put key value item
  | none => item

/-- The constraints of the patch, where empty ones take those of the item away. -/
def replaceConstraints (patch item : Fields) : Fields :=
  match Entries.get? "constraints" patch with
  | some constraints =>
    if constraints.truthy then Entries.put "constraints" constraints item
    else Entries.erase "constraints" item
  | none => item

def addPatcher (patcher : Value) (item : Fields) : Except Fault Fields :=
  match (Entries.get? "_patched_by" item).getD (.array []) with
  | .array patchers =>
    match (patchers ++ [patcher]).mapM Value.text? with
    | some names =>
      .ok (Entries.put "_patched_by" (.array ((Text.sort names).map Value.text)) item)
    | none =>
      if patchers.isEmpty then .ok (Entries.put "_patched_by" (.array [patcher]) item)
      else misused .operand
  | _ => misused .member

def sourced (key : Text) : Value → Value
  | .object mark fields => .object mark (Entries.put "_source_patched" (.text key) fields)
  | value => value

def applyTo (name : Text) (patch item : Fields) : Except Fault Fields := do
  let patcher ← (Value.record patch).at_ "extension"
  let item ← match Entries.get? "profiles" patch with
    | some profiles =>
      if profiles.truthy then
        let joined ← mergeProfiles [Entries.get? "profiles" item, some profiles]
        pure (Entries.put "profiles" (.array joined) item)
      else pure item
    | none => pure item
  let own := Entries.orEmpty "attributes" item
  let changes ← Value.fieldsOrNone (Entries.get? "attributes" patch)
  let changes := Value.shiftFields (Value.boundFields item) changes
  let changes := Entries.mapValues (sourced (Scope.within patcher.shown name)) changes
  let attributes ←
    if changes.isEmpty then pure own
    else pure (Value.record (Value.overlay (← own.asFields) changes))
  let item := Entries.put "attributes" attributes item
  let item := replacedKeys.foldl (replace patch) item
  addPatcher patcher (replaceConstraints patch item)

def apply (kind : ItemKind) (items : Entries Fields) (name : Text) (patch : Fields) :
    Act (Entries Fields) := do
  let patcher ← (Value.record patch).at_ "extension"
  let context :=
    "extension " ++ patcher.enclosed ++ " " ++ kind.name ++ " patch " ++ name.enclosed
  match Entries.get? name items with
  | none =>
    leaveUnresolved (.nothingToPatch context kind name)
    return items
  | some item =>
    match Entries.get? "extension" item with
    | some owner => throw (.definition (.patchAcrossExtensions context name owner))
    | none =>
      note (.patching context name)
      return Entries.put name (← applyTo name patch item) items

def applyAll (kind : ItemKind) (items : Entries Fields) (patches : Patches) :
    Act (Entries Fields) :=
  patches.foldlM (fun items entry =>
    entry.2.foldlM (fun items patch => apply kind items entry.1 patch) items) items

end Patch

end EventSchema
