import EventSchema.Decimal.Double

/-!
The shortest decimal that reads back as a given double.

A finite double stands for every real number between the midpoints to its two neighbours. The digits
sought are the fewest whose decimal lies in that interval, and of two such decimals of the same
length the one nearer to the double; a tie goes to the even last digit. A grid of decimals of one
length meets the interval only if one of the two grid points around the double does, so two
candidates for each length are enough, and seventeen digits always are.
-/

set_option autoImplicit false

namespace EventSchema.Double

structure Scientific where
  digits : Nat
  power : Int
deriving DecidableEq, Repr

def decimalLe (a : Nat) (p : Int) (b : Nat) (q : Int) : Bool :=
  decide (a * tenTo p.toNat * twoTo (-q).toNat ≤ b * twoTo q.toNat * tenTo (-p).toNat)

def binaryLe (b : Nat) (q : Int) (a : Nat) (p : Int) : Bool :=
  decide (b * twoTo q.toNat * tenTo (-p).toNat ≤ a * tenTo p.toNat * twoTo (-q).toNat)

def leadingPower (m : Nat) (q : Int) : Int :=
  let guess := ((m.log2 : Int) + q) * 30103 / 100000
  if decimalLe 1 (guess + 1) m q then guess + 1
  else if decimalLe 1 guess m q then guess
  else guess - 1

/-- Whether a decimal lies among the reals that round to the double; the ends belong to it when the
significand is even. Below a power of two the neighbour is only half as far away. -/
def readsBack (x : Double) (c : Nat) (p : Int) : Bool :=
  let m := x.significand
  let q := x.exponent - 2
  let lower := if m = twoTo 52 ∧ -1074 < x.exponent then 4 * m - 1 else 4 * m - 2
  let upper := 4 * m + 2
  if m % 2 = 0 then binaryLe lower q c p && decimalLe c p upper q
  else !decimalLe c p lower q && !binaryLe upper q c p

/-- The decimal of the given number of digits that reads back, if there is one. -/
def candidate? (x : Double) (leading : Int) (count : Nat) : Option Scientific :=
  let m := x.significand
  let q := x.exponent
  let p := leading - count + 1
  let below := m * twoTo q.toNat * tenTo (-p).toNat / (twoTo (-q).toNat * tenTo p.toNat)
  let above := below + 1
  match x.readsBack below p, x.readsBack above p with
  | true, true =>
    -- compare the double with the midpoint of the two grid points
    let pastHalf := binaryLe (2 * m) q (2 * below + 1) p
    let beforeHalf := decimalLe (2 * below + 1) p (2 * m) q
    if pastHalf && beforeHalf then some ⟨if below % 2 = 0 then below else above, p⟩
    else if pastHalf then some ⟨below, p⟩ else some ⟨above, p⟩
  | true, false => some ⟨below, p⟩
  | false, true => some ⟨above, p⟩
  | false, false => none

/-- Zeros at the end moved into the power of ten. -/
def Scientific.trimmed (s : Scientific) : Scientific :=
  if h : s.digits ≠ 0 ∧ s.digits % 10 = 0 then
    Scientific.trimmed ⟨s.digits / 10, s.power + 1⟩
  else s
termination_by s.digits
decreasing_by omega

/-- The shortest decimal that reads back as a finite double other than zero. -/
def shortest (x : Double) : Scientific :=
  let leading := leadingPower x.significand x.exponent
  match (List.range 17).findSome? fun n => x.candidate? leading (n + 1) with
  | some s => s.trimmed
  | none => ⟨x.significand, x.exponent⟩

end EventSchema.Double
