import EventSchema.Run
import EventSchema.Value.Access
import EventSchema.Value.Sharing

/-!
Values that may hold objects of the cache.

What is read from the cache is not a copy: its objects are those of the cached fragment, and what is
changed in it is changed there. An object of the cache is told by the path of its fragment and its place
in it. A value is therefore carried along with its aliases, and a change in place is a step of the run:
`Aliased.write` gives every object of the cache that the value holds its present content. A deep copy has
no aliases, so what is done to it stays with it.
-/

set_option autoImplicit false

namespace EventSchema

abbrev Place := List Text

/-- The objects at the places of a value that are objects of the cache: the path of the fragment and the
place in it. -/
abbrev Aliases := Place → Option (Path × Place)

namespace Aliases

def none : Aliases := fun _ => Option.none

def below (key : Text) (aliases : Aliases) : Aliases := fun place => aliases (key :: place)

def put (key : Text) (aliases inner : Aliases) : Aliases
  | [] => aliases []
  | name :: place => if name = key then inner place else aliases (name :: place)

def putEach (key : Text) (gets : Text → Bool) (aliases inner : Aliases) : Aliases
  | name :: field :: place =>
    if field = key ∧ gets name then inner place else aliases (name :: field :: place)
  | place => aliases place

def merge (dest source : Aliases) : Value → Value → Aliases
  | .object _ _, .object _ _, [] => dest []
  | .object _ fields, .object _ others, key :: place =>
    match Entries.get? key fields, Entries.get? key others with
    | _, .none => dest (key :: place)
    | .none, some _ => source (key :: place)
    | some value, some other => merge (dest.below key) (source.below key) value other place
  | _, _, place => source place

end Aliases

namespace Value

mutual
def placed : Value → List (Place × Value)
  | object mark fields => ([], object mark fields) :: placedFields fields
  | _ => []
def placedFields : List (Text × Value) → List (Place × Value)
  | [] => []
  | (key, value) :: rest =>
    (placed value).map (fun found => (key :: found.1, found.2)) ++ placedFields rest
end

def replaceAt : Place → Value → Value → Value
  | [], new, _ => new
  | key :: place, new, object mark fields => match Entries.get? key fields with
    | some value => object mark (Entries.put key (replaceAt place new value) fields)
    | none => object mark fields
  | _ :: _, _, value => value

end Value

def Cache.write (at_ : Path × Place) (object : Value) (cache : Cache Fields) : Cache Fields :=
  match cache.get? at_.1 with
  | some fragment => match Value.replaceAt at_.2 object (.record fragment) with
    | .object _ fields => cache.put at_.1 fields
    | _ => cache
  | none => cache

structure Aliased where
  value : Value
  aliases : Aliases

namespace Aliased

/-- A value that shares nothing with the cache. -/
def own (value : Value) : Aliased := { value, aliases := .none }

def cached (path : Path) (fragment : Fields) : Aliased where
  value := .record fragment
  aliases := fun place => some (path, place)

def copy (v : Aliased) : Aliased := own v.value

def fields (v : Aliased) : Fields :=
  match v.value with
  | .object _ fields => fields
  | _ => []

def get? (key : Text) (v : Aliased) : Option Aliased :=
  (Entries.get? key v.fields).map fun value => { value, aliases := v.aliases.below key }

def orNull (key : Text) (v : Aliased) : Aliased := (v.get? key).getD (own .null)

def put (key : Text) (v inner : Aliased) : Aliased :=
  match v.value with
  | .object mark fields =>
    { value := .object mark (Entries.put key inner.value fields)
      aliases := v.aliases.put key inner.aliases }
  | _ => v

def erase (key : Text) (v : Aliased) : Aliased :=
  match v.value with
  | .object mark fields => { v with value := .object mark (Entries.erase key fields) }
  | _ => v

def merge (dest source : Aliased) : Aliased where
  value := Value.merge dest.value source.value
  aliases := dest.aliases.merge source.aliases dest.value source.value

/-- The objects of the cache that the value holds, with what they contain now. -/
def lent (v : Aliased) : List ((Path × Place) × Value) :=
  v.value.placed.filterMap fun found => (v.aliases found.1).map fun at_ => (at_, found.2)

/-- The value after a change in place, which shows in the cache wherever the value holds objects of it. -/
def write (v : Aliased) : Act Aliased := do
  modify fun run =>
    { run with cache := v.lent.foldl (fun cache change => cache.write change.1 change.2) run.cache }
  return v

end Aliased

end EventSchema
