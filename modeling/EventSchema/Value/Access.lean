import EventSchema.Fault
import EventSchema.Value.Equality

/-!
Asking values for what only some kinds of values have.

A document may hold a value of any kind anywhere. These questions answer as far as the kind allows
and are a misuse otherwise: a member that only objects have, an operand of the wrong kind, a key that
is not there.
-/

set_option autoImplicit false

namespace EventSchema

def misused {α : Type} (misuse : Misuse) : Except Fault α := .error (.misuse misuse)

namespace Value

def asFields : Value → Except Fault Fields
  | object _ fields => .ok fields
  | _ => misused .member

def field? (key : Text) (v : Value) : Except Fault (Option Value) := do
  return Entries.get? key (← v.asFields)

def at_ (key : Text) : Value → Except Fault Value
  | object _ fields => match Entries.get? key fields with
    | some v => .ok v
    | none => misused .key
  | _ => misused .operand

def withField (target : Value) (key : Text) (value : Value) : Except Fault Value :=
  match target with
  | object mark fields => .ok (object mark (Entries.put key value fields))
  | _ => misused .operand

/-- The place of a list that a number means, which counts from the end if it is negative. -/
def position (items : List Value) (n : Int) : Except Fault Nat :=
  let place := if n < 0 then n + items.length else n
  if 0 ≤ place ∧ place < items.length then .ok place.toNat else misused .position

def assign (target key value : Value) : Except Fault Value :=
  match target with
  | object mark fields => match key with
    | text t => .ok (object mark (Entries.put t value fields))
    | _ => misused .operand
  | array items => match key.whole? with
    | some n => do return array (items.set (← position items n) value)
    | none => misused .operand
  | _ => misused .operand

def assignGiven (target key value : Value) : Except Fault Value :=
  if value.isNull then .ok target else target.assign key value

def iterate : Value → Except Fault (List Value)
  | array items => .ok items
  | object _ fields => .ok ((Entries.keys fields).map text)
  | text t => .ok (t.singles.map text)
  | _ => misused .operand

/-- Whether a value is a member: an item of a list, a key of an object, or a part of a text. -/
def member (value container : Value) : Except Fault Bool :=
  match container with
  | array items => .ok (value.isIn items)
  | object _ fields => match value with
    | text key => .ok (Entries.has key fields)
    | v => if v.isKey then .ok false else misused .operand
  | text whole => match value with
    | text part => .ok (whole.contains part)
    | _ => misused .operand
  | _ => misused .operand

def lookup? {α : Type} (key : Value) (entries : Entries α) : Except Fault (Option α) :=
  match key with
  | text t => .ok (Entries.get? t entries)
  | v => if v.isKey then .ok none else misused .operand

def isEntry {α : Type} (key : Value) (entries : Entries α) : Except Fault Bool := do
  return (← key.lookup? entries).isSome

def fieldsOrNone (value : Option Value) : Except Fault Fields :=
  match value with
  | some v => if v.truthy then v.asFields else .ok []
  | none => .ok []

def given (value : Option Value) : Bool :=
  match value with
  | some v => v.truthy
  | none => false

end Value

namespace Entries

def getOr (key : Text) (fields : Fields) (default : Value) : Value :=
  (get? key fields).getD default

def orNull (key : Text) (fields : Fields) : Value := getOr key fields .null

def orEmpty (key : Text) (fields : Fields) : Value := getOr key fields (.record [])

end Entries

def Value.addNew (merged items : List Value) : List Value :=
  items.foldl (fun merged item => if item.isIn merged then merged else merged ++ [item]) merged

/-- Profile lists one after another, repeats dropped; a list that is missing or empty adds nothing. -/
def mergeProfiles (lists : List (Option Value)) : Except Fault (List Value) :=
  lists.foldlM (fun merged profiles =>
    match profiles with
    | some profiles =>
      if profiles.truthy then return Value.addNew merged (← profiles.iterate) else return merged
    | none => return merged) []

end EventSchema
