import EventSchema.Text.Basic

/-!
Reading a whole number from text, as keys of an enumeration and options on a command line spell it:
blanks around, an optional sign, and decimal digits of any script with single underscores between
them.
-/

set_option autoImplicit false

namespace EventSchema.Text

/-- The blanks that may stand around a number: the ASCII ones from tab to carriage return and the
space, and the white space of Unicode beyond ASCII. -/
def isBlank (code : Nat) : Bool :=
  (0x09 ≤ code && code ≤ 0x0d) || code == 0x20 || code == 0x85 || code == 0xa0 || code == 0x1680
    || (0x2000 ≤ code && code ≤ 0x200a) || code == 0x2028 || code == 0x2029 || code == 0x202f
    || code == 0x205f || code == 0x3000

/-- The zeros of Unicode 14, each followed by the other nine digits of its script. -/
def digitZeros : List Nat :=
  [0x30, 0x660, 0x6f0, 0x7c0, 0x966, 0x9e6, 0xa66, 0xae6, 0xb66, 0xbe6, 0xc66, 0xce6, 0xd66,
   0xde6, 0xe50, 0xed0, 0xf20, 0x1040, 0x1090, 0x17e0, 0x1810, 0x1946, 0x19d0, 0x1a80, 0x1a90,
   0x1b50, 0x1bb0, 0x1c40, 0x1c50, 0xa620, 0xa8d0, 0xa900, 0xa9d0, 0xa9f0, 0xaa50, 0xabf0, 0xff10,
   0x104a0, 0x10d30, 0x11066, 0x110f0, 0x11136, 0x111d0, 0x112f0, 0x11450, 0x114d0, 0x11650,
   0x116c0, 0x11730, 0x118e0, 0x11950, 0x11c50, 0x11d50, 0x11da0, 0x16a60, 0x16ac0, 0x16b50,
   0x1d7ce, 0x1d7d8, 0x1d7e2, 0x1d7ec, 0x1d7f6, 0x1e140, 0x1e2f0, 0x1e950, 0x1fbf0]

def digitValue? (code : Nat) : Option Nat :=
  (digitZeros.find? fun start => start ≤ code && code < start + 10).map (code - ·)

def digitRun? : List Nat → Option (List Nat)
  | [] => none
  | [c] => (digitValue? c).map ([·])
  | c :: d :: rest =>
    if d = 0x5f then
      match digitValue? c, digitRun? rest with
      | some n, some values => some (n :: values)
      | _, _ => none
    else
      match digitValue? c, digitRun? (d :: rest) with
      | some n, some values => some (n :: values)
      | _, _ => none

/-- The most digits a whole number that is read may be written with. A number that is written has no
such limit here: the numbers that are written are read ones and uids made of them, which have at most a
few digits more. -/
def digitLimit : Nat := 4300

/-- The number that a sequence of digit values spells in base ten. -/
def decimalValue (digits : List Nat) : Nat := digits.foldl (fun n d => 10 * n + d) 0

/-- The natural number of a run of digits, refused beyond the digit limit. -/
def parseNat? (codes : List Nat) : Option Nat :=
  match digitRun? codes with
  | some values => if values.length ≤ digitLimit then some (decimalValue values) else none
  | none => none

def strip (t : Text) : Text :=
  ⟨((t.codes.dropWhile isBlank).reverse.dropWhile isBlank).reverse⟩

def parseInt? (t : Text) : Option Int :=
  match t.strip.codes with
  | 0x2d :: rest => (parseNat? rest).map fun n => -(n : Int)
  | 0x2b :: rest => (parseNat? rest).map fun n => (n : Int)
  | codes => (parseNat? codes).map fun n => (n : Int)

end EventSchema.Text
