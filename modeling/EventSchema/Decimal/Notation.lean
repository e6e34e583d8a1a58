import EventSchema.Decimal.Shortest
import EventSchema.Text.Basic

/-!
How a double is written: by its shortest digits, positionally while the leading digit stands between
the fourth place after the point and the sixteenth before it, otherwise with an exponent of at least
two digits. A positional number always shows a place after the point.
-/

set_option autoImplicit false

namespace EventSchema.Double

/-- The powers of ten of the leading digit that are written positionally. -/
def positionalRange (leading : Int) : Bool := -4 ≤ leading && leading < 16

def zeros (n : Nat) : Text := ⟨List.replicate n 0x30⟩

def positional (digits : Text) (point : Int) : Text :=
  if point ≤ 0 then "0." ++ zeros (-point).toNat ++ digits
  else
    let whole := point.toNat
    if digits.length ≤ whole then digits ++ zeros (whole - digits.length) ++ ".0"
    else ⟨digits.codes.take whole⟩ ++ "." ++ ⟨digits.codes.drop whole⟩

/-- One digit before the point, then the power of ten with its sign. -/
def exponential (digits : Text) (leading : Int) : Text :=
  let rest : Text := ⟨digits.codes.drop 1⟩
  let mantissa := ⟨digits.codes.take 1⟩ ++ (if rest.isEmpty then ∅ else "." ++ rest)
  let size := Text.ofNat leading.natAbs
  mantissa ++ (if leading < 0 then "e-" else "e+") ++ zeros (2 - size.length) ++ size

def magnitudeText (x : Double) : Text :=
  let s := x.shortest
  let digits := Text.ofNat s.digits
  let leading := digits.length + s.power - 1
  if positionalRange leading then positional digits (leading + 1)
  else exponential digits leading

/-- The written form; `nan` and `inf` name what has no digits. -/
def text (x : Double) : Text :=
  if x.isNaN then "nan"
  else
    let size : Text :=
      if x.isInfinite then "inf" else if x.isZero then "0.0" else x.magnitudeText
    if x.isNegative then "-" ++ size else size

end EventSchema.Double
