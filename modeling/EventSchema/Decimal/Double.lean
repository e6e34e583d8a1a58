/-!
Binary floating-point numbers of 64 bits, held as their bit patterns.

Documents spell fractions in decimal. `Double.ofDecimal` gives the double nearest to a decimal, a
half going to the even neighbour, by exact arithmetic on natural numbers, so reading a number is an
ordinary total function. The comparison with whole numbers is exact as well.
-/

set_option autoImplicit false

namespace EventSchema

/-- A double by its bit pattern: sign, eleven bits of exponent, fifty-two of fraction. -/
structure Double where
  bits : UInt64
deriving DecidableEq, Inhabited, Hashable, Repr

namespace Double

def twoTo (n : Nat) : Nat := Nat.pow 2 n

def tenTo (n : Nat) : Nat := Nat.pow 10 n

def isNegative (x : Double) : Bool := decide (twoTo 63 ≤ x.bits.toNat)

def exponentField (x : Double) : Nat := x.bits.toNat / twoTo 52 % twoTo 11

def fraction (x : Double) : Nat := x.bits.toNat % twoTo 52

def isNaN (x : Double) : Bool := x.exponentField == 2047 && x.fraction != 0

def isInfinite (x : Double) : Bool := x.exponentField == 2047 && x.fraction == 0

def isZero (x : Double) : Bool := x.exponentField == 0 && x.fraction == 0

/-- The whole number `m` of a finite double of magnitude `m * 2 ^ q`. -/
def significand (x : Double) : Nat :=
  if x.exponentField = 0 then x.fraction else x.fraction + twoTo 52

/-- The exponent `q` of a finite double of magnitude `m * 2 ^ q`. -/
def exponent (x : Double) : Int := (max x.exponentField 1 : Nat) - 1075

def infinityBits : Nat := 2047 * twoTo 52

def ofBits (negative : Bool) (magnitude : Nat) : Double :=
  ⟨UInt64.ofNat ((if negative then twoTo 63 else 0) + magnitude)⟩

def zero (negative : Bool) : Double := ofBits negative 0

def infinity (negative : Bool) : Double := ofBits negative infinityBits

def nan : Double := ofBits false (infinityBits + twoTo 51)

/-- The whole number nearest to a quotient; a half goes to the even neighbour. -/
def nearestEven (numerator denominator : Nat) : Nat :=
  let quotient := numerator / denominator
  let remainder := numerator % denominator
  if 2 * remainder < denominator then quotient
  else if denominator < 2 * remainder then quotient + 1
  else quotient + quotient % 2

def scale (numerator denominator : Nat) (power : Int) : Nat × Nat :=
  if 0 ≤ power then (numerator, denominator * twoTo power.toNat)
  else (numerator * twoTo (-power).toNat, denominator)

/-- The exponent at which a positive quotient has a significand of fifty-three bits, or the least
exponent there is. -/
def exponentFor (numerator denominator : Nat) : Int :=
  let guess : Int := (numerator.log2 : Int) - denominator.log2 - 53
  let scaled := scale numerator denominator guess
  let exact := if twoTo 53 ≤ scaled.1 / scaled.2 then guess + 1 else guess
  max exact (-1074)

/-- The double nearest to a positive quotient, infinity when it is out of range. -/
def ofRatio (negative : Bool) (numerator denominator : Nat) : Double :=
  let power := exponentFor numerator denominator
  let scaled := scale numerator denominator power
  let magnitude := (power + 1074).toNat * twoTo 52 + nearestEven scaled.1 scaled.2
  ofBits negative (min magnitude infinityBits)

/-- The double nearest to `digits * 10 ^ power`. Values that are out of range by their size alone are
settled before any power of ten is taken. -/
def ofDecimal (negative : Bool) (digits : Nat) (power : Int) : Double :=
  if digits = 0 then zero negative
  else if 0 ≤ power then
    if 1025 * 1000 ≤ 1000 * (digits.log2 : Int) + 3321 * power then infinity negative
    else ofRatio negative (digits * tenTo power.toNat) 1
  else
    if 1000 * ((digits.log2 : Int) + 1) + 3321 * power < -1100 * 1000 then zero negative
    else ofRatio negative digits (tenTo (-power).toNat)

/-- The double nearest to a whole number, if it is in range. -/
def ofInt? (n : Int) : Option Double :=
  let x := ofDecimal (decide (n < 0)) n.natAbs 0
  if x.isInfinite then none else some x

/-- The value scaled by `2 ^ -q` where `q` is the exponent if that is negative: a finite double is
`numerator / 2 ^ shift`. -/
def numerator (x : Double) : Int :=
  let magnitude : Nat := x.significand * twoTo x.exponent.toNat
  if x.isNegative then -(magnitude : Int) else magnitude

def shift (x : Double) : Nat := (-x.exponent).toNat

def toInt? (x : Double) : Option Int :=
  if x.exponentField = 2047 then none
  else
    let unit : Int := twoTo x.shift
    if x.numerator % unit = 0 then some (x.numerator / unit) else none

/-- Whether the double is below the whole number. Nothing holds of what is not a number. -/
def ltInt (x : Double) (n : Int) : Bool :=
  if x.isNaN then false
  else if x.isInfinite then x.isNegative
  else decide (x.numerator < n * (twoTo x.shift : Int))

/-- Numerical equality: both zeros are equal, and what is not a number equals nothing. -/
def equals (x y : Double) : Bool :=
  !x.isNaN && !y.isNaN && (x == y || (x.isZero && y.isZero))

def add (x y : Double) : Double := ⟨(Float.ofBits x.bits + Float.ofBits y.bits).toBits⟩

def mul (x y : Double) : Double := ⟨(Float.ofBits x.bits * Float.ofBits y.bits).toBits⟩

end Double

end EventSchema
