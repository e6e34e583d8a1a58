import EventSchema.Text.Numeral
import EventSchema.Value.Basic

/-!
Reading JSON text.

Beyond the standard, `NaN`, `Infinity` and `-Infinity` are numbers and an escape may spell half of a
surrogate pair. A number with a fraction or an exponent is a double, any other number a whole number.
A repeated key keeps its first place and takes its last value.

Every reader returns what is left of the text together with the proof that this is less than it was
given, which is also the measure by which the reading ends. A fault is located by the number of codes
from it to the end of the text.
-/

set_option autoImplicit false

namespace EventSchema.Json

/-- Why a text is not JSON. -/
inductive Cause where
  | value
  | propertyName
  | colon
  | comma
  | unterminatedString
  | controlCharacter
  | escape
  | unicodeEscape
  | extraData
  | byteOrderMark
deriving DecidableEq, Repr

/-- Why reading stopped: a fault with so many codes left from it on, or a whole number with more
digits than are taken. -/
inductive Stop where
  | fault (cause : Cause) (remaining : Nat)
  | hugeNumber
deriving DecidableEq, Repr

abbrev Rest (s : List Nat) := { rest : List Nat // rest.length < s.length }

def isBlank (code : Nat) : Bool := code == 0x20 || code == 0x09 || code == 0x0a || code == 0x0d

def skipBlanks (s : List Nat) : List Nat := s.dropWhile isBlank

theorem dropWhile_length_le (p : Nat → Bool) (s : List Nat) :
    (s.dropWhile p).length ≤ s.length :=
  (List.dropWhile_sublist p).length_le

theorem skipBlanks_length_le (s : List Nat) : (skipBlanks s).length ≤ s.length :=
  dropWhile_length_le isBlank s

def isDigit (code : Nat) : Bool := 0x30 ≤ code && code ≤ 0x39

def hexValue? (code : Nat) : Option Nat :=
  if 0x30 ≤ code ∧ code ≤ 0x39 then some (code - 0x30)
  else if 0x41 ≤ code ∧ code ≤ 0x46 then some (code - 0x37)
  else if 0x61 ≤ code ∧ code ≤ 0x66 then some (code - 0x57)
  else none

/-- The number of four hexadecimal digits at the front. -/
def hex4? : List Nat → Option Nat
  | a :: b :: c :: d :: _ =>
    match hexValue? a, hexValue? b, hexValue? c, hexValue? d with
    | some a, some b, some c, some d => some (((a * 16 + b) * 16 + c) * 16 + d)
    | _, _, _, _ => none
  | _ => none

def isHighSurrogate (code : Nat) : Bool := 0xd800 ≤ code && code < 0xdc00

def isLowSurrogate (code : Nat) : Bool := 0xdc00 ≤ code && code < 0xe000

def joinSurrogates (high low : Nat) : Nat := 0x10000 + (high - 0xd800) * 1024 + (low - 0xdc00)

def escaped? (code : Nat) : Option Nat :=
  if code = 0x22 ∨ code = 0x5c ∨ code = 0x2f then some code
  else if code = 0x62 then some 0x08
  else if code = 0x66 then some 0x0c
  else if code = 0x6e then some 0x0a
  else if code = 0x72 then some 0x0d
  else if code = 0x74 then some 0x09
  else none

/-- The second half of a surrogate pair, spelled as an escape at the front: the code of the pair and
the number of codes taken, or the remaining codes at a spoiled escape. An escape too near the end of
the text is left to be read on its own. -/
def secondHalf? (high : Nat) (s : List Nat) : Except Nat (Option Nat) :=
  match s with
  | 0x5c :: 0x75 :: digits =>
    if (s.drop 6).isEmpty then .ok none
    else match hex4? digits with
      | none => .error (digits.length + 1)
      | some low => .ok (if isLowSurrogate low then some (joinSurrogates high low) else none)
  | _ => .ok none

/-- The code of a four-digit escape, where `s` follows its letter. The digits must not be the last
codes of the text. -/
def readUnicode (s : List Nat) : Except Stop (Nat × { rest : List Nat // rest.length ≤ s.length }) :=
  let spoiled : Stop := .fault .unicodeEscape (s.length + 1)
  if (s.drop 4).isEmpty then .error spoiled
  else match hex4? s with
    | none => .error spoiled
    | some code =>
      let rest := s.drop 4
      if isHighSurrogate code then
        match secondHalf? code rest with
        | .error remaining => .error (.fault .unicodeEscape remaining)
        | .ok (some pair) => .ok (pair, ⟨s.drop 10, by simp⟩)
        | .ok none => .ok (code, ⟨rest, by simp [rest]⟩)
      else .ok (code, ⟨rest, by simp [rest]⟩)

/-- The code of an escape, where `s` follows the backslash. `opening` holds the codes from the opening
quote on. -/
def readEscape (opening : List Nat) (s : List Nat) : Except Stop (Nat × Rest s) :=
  match s with
  | [] => .error (.fault .unterminatedString opening.length)
  | c :: rest =>
    if c = 0x75 then
      match readUnicode rest with
      | .error stop => .error stop
      | .ok (code, ⟨after, h⟩) => .ok (code, ⟨after, by simp; omega⟩)
    else match escaped? c with
      | some code => .ok (code, ⟨rest, by simp⟩)
      | none => .error (.fault .escape (rest.length + 2))

def readString (opening : List Nat) (s : List Nat) : Except Stop (List Nat × Rest s) :=
  match s with
  | [] => .error (.fault .unterminatedString opening.length)
  | c :: rest =>
    if c = 0x22 then .ok ([], ⟨rest, by simp⟩)
    else if c = 0x5c then
      match readEscape opening rest with
      | .error stop => .error stop
      | .ok (code, ⟨after, h⟩) =>
        match readString opening after with
        | .error stop => .error stop
        | .ok (codes, ⟨last, h'⟩) => .ok (code :: codes, ⟨last, by simp; omega⟩)
    else if c ≤ 0x1f then .error (.fault .controlCharacter (rest.length + 1))
    else
      match readString opening rest with
      | .error stop => .error stop
      | .ok (codes, ⟨last, h⟩) => .ok (c :: codes, ⟨last, by simp; omega⟩)
termination_by s.length
decreasing_by all_goals simp_all; try omega

def wholeDigits : List Nat → List Nat
  | [] => []
  | c :: rest =>
    if c = 0x30 then [c] else if isDigit c then c :: rest.takeWhile isDigit else []

def fractionDigits : List Nat → List Nat
  | 0x2e :: rest => rest.takeWhile isDigit
  | _ => []

/-- The exponent at the front and the number of codes it takes, if there is one. -/
def exponentPart? (s : List Nat) : Option (Int × Nat) :=
  match s with
  | e :: rest =>
    if e = 0x65 ∨ e = 0x45 then
      let signed := match rest with
        | c :: _ => c == 0x2d || c == 0x2b
        | [] => false
      let digits := (if signed then rest.drop 1 else rest).takeWhile isDigit
      let size : Int := Text.decimalValue (digits.map (· - 0x30))
      if digits.isEmpty then none
      else some (if rest.head? = some 0x2d then -size else size,
        digits.length + (if signed then 2 else 1))
    else none
  | [] => none

def readNumber (s : List Nat) : Except Stop (Value × Rest s) :=
  let negative := s.head? == some 0x2d
  let unsigned := if negative then s.drop 1 else s
  let whole := wholeDigits unsigned
  if present : whole = [] ∨ s = [] then .error (.fault .value s.length)
  else
    let afterWhole := unsigned.drop whole.length
    let fraction := fractionDigits afterWhole
    let afterFraction :=
      if fraction.isEmpty then afterWhole else afterWhole.drop (fraction.length + 1)
    have shorter : afterFraction.length < s.length := by
      have nonempty : 0 < whole.length := by
        cases h : whole with
        | nil => simp [h] at present
        | cons => simp
      have given : 0 < s.length := by
        cases h : s with
        | nil => simp [h] at present
        | cons => simp
      have first : unsigned.length ≤ s.length := by simp only [unsigned]; split <;> simp
      have second : afterFraction.length ≤ afterWhole.length := by
        simp only [afterFraction]; split <;> simp
      have third : afterWhole.length = unsigned.length - whole.length := by simp [afterWhole]
      omega
    let digitValues (digits : List Nat) : Nat := Text.decimalValue (digits.map (· - 0x30))
    match exponentPart? afterFraction with
    | none =>
      if fraction.isEmpty then
        if Text.digitLimit < whole.length then .error .hugeNumber
        else
          let n : Int := digitValues whole
          .ok (.int (if negative then -n else n), ⟨afterFraction, shorter⟩)
      else
        .ok (.float (Double.ofDecimal negative (digitValues (whole ++ fraction))
          (-(fraction.length : Int))), ⟨afterFraction, shorter⟩)
    | some (power, size) =>
      .ok (.float (Double.ofDecimal negative (digitValues (whole ++ fraction))
          (power - fraction.length)),
        ⟨afterFraction.drop size, by
          have := List.length_drop (i := size) (l := afterFraction)
          omega⟩)

def words : List (Text × Value) :=
  [("null", .null), ("true", .bool true), ("false", .bool false), ("NaN", .float Double.nan),
    ("Infinity", .float (Double.infinity false)), ("-Infinity", .float (Double.infinity true))]

def word? (s : List Nat) : Option (Text × Value) :=
  words.find? fun word => Text.leads word.1.codes s

/-- A value without parts at the front: a word or a number. -/
def readAtom (s : List Nat) : Except Stop (Value × Rest s) :=
  match s, word? s with
  | c :: rest, some (word, value) =>
    .ok (value, ⟨rest.drop (word.length - 1), by
      simp only [List.length_drop, List.length_cons]; omega⟩)
  | s, _ => readNumber s

mutual
def readValue (s : List Nat) : Except Stop (Value × Rest s) :=
  match s with
  | [] => .error (.fault .value 0)
  | c :: rest =>
    if c = 0x22 then
      match readString (c :: rest) rest with
      | .error stop => .error stop
      | .ok (codes, ⟨after, h⟩) => .ok (.text ⟨codes⟩, ⟨after, by simp; omega⟩)
    else if c = 0x7b then
      have bound := skipBlanks_length_le rest
      match start : skipBlanks rest with
      | 0x7d :: after => .ok (.record [], ⟨after, by simp_all; omega⟩)
      | first =>
        match readFields [] first with
        | .error stop => .error stop
        | .ok (fields, ⟨after, h⟩) =>
          .ok (.record fields, ⟨after, by rw [start] at bound; simp; omega⟩)
    else if c = 0x5b then
      have bound := skipBlanks_length_le rest
      match start : skipBlanks rest with
      | 0x5d :: after => .ok (.array [], ⟨after, by simp_all; omega⟩)
      | first =>
        match readItems first with
        | .error stop => .error stop
        | .ok (items, ⟨after, h⟩) =>
          .ok (.array items, ⟨after, by rw [start] at bound; simp; omega⟩)
    else readAtom (c :: rest)
termination_by 2 * s.length
decreasing_by
  all_goals
    have _bound := skipBlanks_length_le rest
    simp_all
    try omega

/-- The fields of an object from a key on, put after those already read. -/
def readFields (done : Fields) (s : List Nat) : Except Stop (Fields × Rest s) :=
  match s with
  | 0x22 :: rest =>
    match readString (0x22 :: rest) rest with
    | .error stop => .error stop
    | .ok (key, ⟨afterKey, h₁⟩) =>
      have bound₁ := skipBlanks_length_le afterKey
      match colon : skipBlanks afterKey with
      | 0x3a :: valueText =>
        have bound₂ := skipBlanks_length_le valueText
        match readValue (skipBlanks valueText) with
        | .error stop => .error stop
        | .ok (value, ⟨afterValue, h₂⟩) =>
          let fields := Entries.put ⟨key⟩ value done
          have bound₃ := skipBlanks_length_le afterValue
          match closing : skipBlanks afterValue with
          | 0x7d :: after =>
            .ok (fields, ⟨after, by rw [colon] at bound₁; rw [closing] at bound₃; simp_all; omega⟩)
          | 0x2c :: more =>
            have bound₄ := skipBlanks_length_le more
            match readFields fields (skipBlanks more) with
            | .error stop => .error stop
            | .ok (all, ⟨after, h₃⟩) =>
              .ok (all, ⟨after, by
                rw [colon] at bound₁; rw [closing] at bound₃; simp_all; omega⟩)
          | other => .error (.fault .comma other.length)
      | other => .error (.fault .colon other.length)
  | s => .error (.fault .propertyName s.length)
termination_by 2 * s.length
decreasing_by
  · rw [colon] at bound₁; simp_all; omega
  · rw [colon] at bound₁; rw [closing] at bound₃; simp_all; omega

def readItems (s : List Nat) : Except Stop (List Value × Rest s) :=
  match readValue s with
  | .error stop => .error stop
  | .ok (value, ⟨afterValue, h₁⟩) =>
    have bound₁ := skipBlanks_length_le afterValue
    match closing : skipBlanks afterValue with
    | 0x5d :: after => .ok ([value], ⟨after, by rw [closing] at bound₁; simp_all; omega⟩)
    | 0x2c :: more =>
      have bound₂ := skipBlanks_length_le more
      match readItems (skipBlanks more) with
      | .error stop => .error stop
      | .ok (items, ⟨after, h₂⟩) =>
        .ok (value :: items, ⟨after, by rw [closing] at bound₁; simp_all; omega⟩)
    | other => .error (.fault .comma other.length)
termination_by 2 * s.length + 1
decreasing_by
  · omega
  · rw [closing] at bound₁; simp_all; omega
end

def readCodes (s : List Nat) : Except Stop Value :=
  match s with
  | 0xfeff :: _ => .error (.fault .byteOrderMark s.length)
  | _ =>
    match readValue (skipBlanks s) with
    | .error stop => .error stop
    | .ok (value, ⟨after, _⟩) =>
      match skipBlanks after with
      | [] => .ok value
      | rest => .error (.fault .extraData rest.length)

/-- A fault with its place in the text: lines and columns count from one, codes from zero. -/
structure Fault where
  cause : Cause
  line : Nat
  column : Nat
  index : Nat
deriving DecidableEq, Repr

def Cause.message : Cause → Text
  | .value => "Expecting value"
  | .propertyName => "Expecting property name enclosed in double quotes"
  | .colon => "Expecting ':' delimiter"
  | .comma => "Expecting ',' delimiter"
  | .unterminatedString => "Unterminated string starting at"
  | .controlCharacter => "Invalid control character at"
  | .escape => "Invalid \\escape"
  | .unicodeEscape => "Invalid \\uXXXX escape"
  | .extraData => "Extra data"
  | .byteOrderMark => "Unexpected UTF-8 BOM (decode using utf-8-sig)"

def Fault.message (f : Fault) : Text :=
  f.cause.message ++ ": line " ++ Text.ofNat f.line ++ " column " ++ Text.ofNat f.column
    ++ " (char " ++ Text.ofNat f.index ++ ")"

def Fault.locate (codes : List Nat) (cause : Cause) (remaining : Nat) : Fault :=
  let index := codes.length - remaining
  let before := codes.take index
  { cause, index
    line := before.count 0x0a + 1
    column := (before.reverse.takeWhile (· != 0x0a)).length + 1 }

/-- What reading a text gives. -/
inductive Outcome where
  | value (v : Value)
  | fault (f : Fault)
  | hugeNumber
deriving Inhabited

/-- The value that a text spells, or the located fault. -/
def read (t : Text) : Outcome :=
  match readCodes t.codes with
  | .ok v => .value v
  | .error (.fault cause remaining) => .fault (Fault.locate t.codes cause remaining)
  | .error .hugeNumber => .hugeNumber

end EventSchema.Json
