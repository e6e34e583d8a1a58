import EventSchema.Value.Basic

/-!
Equality of values as documents mean it.

Numbers are compared by value, and a truth value counts as the number one or zero, so `1`, `1.0` and
`true` are equal. Objects are equal when they hold equal values under the same keys, in any order.
What is not a number equals itself as a member of a list or an object, where identity is asked
first, but not in a direct comparison.
-/

set_option autoImplicit false

namespace EventSchema.Value

def whole? : Value → Option Int
  | bool b => some (if b then 1 else 0)
  | int n => some n
  | _ => none

def leafSame (a b : Value) : Bool :=
  match a, b with
  | null, null => true
  | text s, text t => s == t
  | float x, float y => x.equals y || (x.isNaN && y.isNaN)
  | float x, b => b.whole?.isSome && x.toInt? == b.whole?
  | a, float y => a.whole?.isSome && y.toInt? == a.whole?
  | a, b => a.whole?.isSome && a.whole? == b.whole?

mutual
def same : Value → Value → Bool
  | array a, b => match b with
    | array b => sameItems a b
    | _ => false
  | object _ a, b => match b with
    | object _ b => a.length == b.length && sameFields a b
    | _ => false
  | a, b => leafSame a b
def sameItems : List Value → List Value → Bool
  | [], [] => true
  | a :: as, b :: bs => same a b && sameItems as bs
  | _, _ => false
/-- Whether every field of the first object is a field of the second. -/
def sameFields : List (Text × Value) → List (Text × Value) → Bool
  | [], _ => true
  | (k, v) :: rest, fields => (match Entries.get? k fields with
    | some w => same v w
    | none => false) && sameFields rest fields
end

def isNaN : Value → Bool
  | float x => x.isNaN
  | _ => false

def equals (a b : Value) : Bool := same a b && !a.isNaN

def isIn (value : Value) (items : List Value) : Bool := items.any fun item => same item value

def isAmong (value : Value) (items : List Value) : Bool := items.any fun item => value.equals item

/-- Whether a value can be looked up in a set or under a key: one without parts that change. -/
def isKey : Value → Bool
  | array _ | object _ _ => false
  | _ => true

end EventSchema.Value
