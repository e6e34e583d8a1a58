/-!
Text as a sequence of code points.

Schema documents may spell a lone surrogate as an escape, and such a text has to be carried through
to the output unchanged. A `Char` cannot hold one, so a text is a list of code point numbers, with
the order of code points as its order.
-/

set_option autoImplicit false

namespace EventSchema

/-- A text: its code points in order, lone surrogates included. -/
structure Text where
  codes : List Nat
deriving DecidableEq, Inhabited, Hashable, Repr

namespace Text

def ofString (s : String) : Text := ⟨s.toList.map Char.toNat⟩

instance : Coe String Text := ⟨ofString⟩

def empty : Text := ⟨[]⟩

instance : EmptyCollection Text := ⟨empty⟩

instance : Append Text := ⟨fun a b => ⟨a.codes ++ b.codes⟩⟩

@[simp]
theorem codes_append (a b : Text) : (a ++ b).codes = a.codes ++ b.codes := rfl

/-- Whether a sequence of codes comes before another or equals it: the first place where they differ
decides, and a beginning comes before what it begins. -/
def codesLe : List Nat → List Nat → Bool
  | [], _ => true
  | _ :: _, [] => false
  | a :: as, b :: bs => a < b || (a == b && codesLe as bs)

def le (a b : Text) : Bool := codesLe a.codes b.codes

def isEmpty (t : Text) : Bool := t.codes.isEmpty

def length (t : Text) : Nat := t.codes.length

def single (code : Nat) : Text := ⟨[code]⟩

def singles (t : Text) : List Text := t.codes.map single

def concat : List Text → Text
  | [] => ∅
  | t :: rest => t ++ concat rest

def join (separator : Text) : List Text → Text
  | [] => ∅
  | [t] => t
  | t :: rest => t ++ separator ++ join separator rest

/-- Texts in the order of their code points; equal ones stay side by side. -/
def sort (texts : List Text) : List Text := texts.mergeSort Text.le

def leads : (part codes : List Nat) → Bool
  | [], _ => true
  | _ :: _, [] => false
  | a :: part, b :: codes => a == b && leads part codes

def occurs (part : List Nat) : List Nat → Bool
  | [] => part.isEmpty
  | c :: rest => leads part (c :: rest) || occurs part rest

def startsWith (t part : Text) : Bool := leads part.codes t.codes

def endsWith (t part : Text) : Bool := leads part.codes.reverse t.codes.reverse

def contains (t part : Text) : Bool := occurs part.codes t.codes

def splitCodes (separator : Nat) : List Nat → List (List Nat)
  | [] => [[]]
  | c :: rest =>
    if c = separator then [] :: splitCodes separator rest
    else match splitCodes separator rest with
      | [] => [[c]]
      | piece :: pieces => (c :: piece) :: pieces

def split (separator : Nat) (t : Text) : List Text := (splitCodes separator t.codes).map Text.mk

/-- The slash, which parts a path and a scoped key. -/
def slash : Nat := 0x2f

/-- Whether the text names a scope, that is whether it holds a slash. -/
def hasSlash (t : Text) : Bool := t.codes.contains slash

/-- What stands before the first slash, or everything. -/
def beforeSlash (t : Text) : Text := ⟨t.codes.takeWhile (· != slash)⟩

def afterLastSlash (t : Text) : Text :=
  ⟨(t.codes.reverse.takeWhile (· != slash)).reverse⟩

def ofNat (n : Nat) : Text := ⟨(Nat.toDigits 10 n).map Char.toNat⟩

/-- Decimal digits, with a minus sign in front of a negative number. -/
def ofInt : Int → Text
  | .ofNat n => ofNat n
  | .negSucc n => "-" ++ ofNat (n + 1)

def enclosed (t : Text) : Text := "\"" ++ t ++ "\""

/-- The lowercase hexadecimal digits of a number, at least `width` of them. -/
def hex (width n : Nat) : Text :=
  let digits := (Nat.toDigits 16 n).map Char.toNat
  ⟨List.replicate (width - digits.length) 0x30 ++ digits⟩

/-- The text as a string, with a replacement character for what no `Char` can hold. -/
def toString (t : Text) : String :=
  String.ofList (t.codes.map fun c => if c.isValidChar then Char.ofNat c else '\uFFFD')

end Text

end EventSchema
