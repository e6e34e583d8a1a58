import EventSchema.Value.Access
import EventSchema.Value.Basic

/-!
Scoped keys. What an extension defines is kept under `extension/name`, what the base schema defines
under its plain name.
-/

set_option autoImplicit false

namespace EventSchema.Scope

def within (scope name : Text) : Text := scope ++ "/" ++ name

def qualified (name : Value) (scope : Option Value) : Value :=
  match scope with
  | some scope => if scope.truthy then .text (within scope.shown name.shown) else name
  | none => name

/-- The key that a name means inside a scope, where `has` tells which keys there are: the scope's own
if the name names no scope itself, then that very name. -/
def findBy (has : Value → Except Fault Bool) (name : Value) (scope : Option Value) :
    Except Fault (Option Value) := do
  if !name.truthy then return none
  match scope with
  | some scope =>
    if scope.truthy then
      if !(← (Value.text "/").member name) then
        let key := Value.text (within scope.shown name.shown)
        if ← has key then return some key
  | none => pure ()
  if ← has name then return some name else return none

/-- The key among the entries that a name means inside a scope. -/
def find? {α : Type} (entries : Entries α) (name : Value) (scope : Option Value) :
    Except Fault (Option Value) :=
  findBy (fun key => key.isEntry entries) name scope

/-- The key that a name means inside a scope among the members of any value. -/
def findIn (container name : Value) (scope : Option Value) : Except Fault (Option Value) :=
  findBy (fun key => key.member container) name scope

end EventSchema.Scope
