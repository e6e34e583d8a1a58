import EventSchema.Value.Access

/-!
Identifiers that are scoped by one another.

A category has two digits inside its extension, a class three inside its category, and an activity two
inside its class; a scoped identifier puts the digits of its scope in front. Documents may spell
identifiers as any number, so the arithmetic is on values, and other values are misused by it.
-/

set_option autoImplicit false

namespace EventSchema

inductive Number where
  | whole (n : Int)
  | double (x : Double)

namespace Number

def value : Number → Value
  | whole n => .int n
  | double x => .float x

def below (limit : Int) : Number → Bool
  | whole n => decide (n < limit)
  | double x => x.ltInt limit

def atLeast (limit : Int) : Number → Bool
  | whole n => decide (limit ≤ n)
  | double x => !x.isNaN && !x.ltInt limit

def asDouble : Number → Except Fault Double
  | double x => .ok x
  | whole n => match Double.ofInt? n with
    | some x => .ok x
    | none => misused .magnitude

def combine (onWhole : Int → Int → Int) (onDouble : Double → Double → Double) (a b : Number) :
    Except Fault Number :=
  match a, b with
  | whole m, whole n => .ok (whole (onWhole m n))
  | a, b => do return double (onDouble (← a.asDouble) (← b.asDouble))

def add : Number → Number → Except Fault Number := combine (· + ·) Double.add

def mul : Number → Number → Except Fault Number := combine (· * ·) Double.mul

end Number

def Value.asNumber (v : Value) : Except Fault Number :=
  match v with
  | .float x => .ok (.double x)
  | v => match v.whole? with
    | some n => .ok (.whole n)
    | none => misused .operand

namespace Uid

/-- An identifier with the digits of its scope in front, `factor` leaving room for its own. -/
def scope (factor : Int) (outer : Value) (inner : Number) : Except Fault Value := do
  let shifted ← (← outer.asNumber).mul (.whole factor)
  return (← shifted.add inner).value

def category (extension category : Value) : Except Fault Value := do
  let inner ← category.asNumber
  if inner.below 100 then scope 100 extension inner
  else throw (.range (.category category))

/-- The category identifier that scopes a class: that of a category of the base schema is scoped by
the extension of the class, that of an extension's category is scoped already. -/
def categoryOfClass (extension category : Value) : Except Fault Value := do
  if extension.isNull then return category
  if (← category.asNumber).atLeast 100 then return category
  Uid.category extension category

def eventClass (category uid : Value) : Except Fault Value := do
  let inner ← uid.asNumber
  if inner.below 1000 then scope 1000 category inner
  else throw (.range (.eventClass uid))

def activity (eventClass activity : Value) : Except Fault Value := do
  let inner ← activity.asNumber
  if inner.below 100 then scope 100 eventClass inner
  else throw (.range (.activity activity))

end Uid

def requirementRank (requirement : Value) : Except Fault Nat :=
  if requirement.equals (.text "required") then .ok 3
  else if requirement.equals (.text "recommended") then .ok 2
  else if requirement.equals (.text "optional") then .ok 1
  else if requirement.equals (.text "reserved") || requirement.isNull then .ok 0
  else .error (.definition (.requirement requirement))

end EventSchema
