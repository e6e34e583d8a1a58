import EventSchema.Decimal.Notation
import EventSchema.Value.Basic

/-!
Writing values as JSON text in ASCII.

Everything beyond printable ASCII is escaped, code points above the basic plane as a surrogate pair.
A layout says what stands between the parts, whether keys are sorted, and how deep each level is
indented if every part stands on a line of its own.
-/

set_option autoImplicit false

namespace EventSchema.Json

structure Layout where
  comma : Text
  colon : Text
  sorted : Bool
  indent : Option Nat

def Layout.line : Layout := { comma := ", ", colon := ": ", sorted := false, indent := none }

/-- Four columns for each level, keys in order. -/
def Layout.pretty : Layout := { comma := ",", colon := ": ", sorted := true, indent := some 4 }

def unicodeEscape (code : Nat) : Text := "\\u" ++ Text.hex 4 code

def writeCode (code : Nat) : Text :=
  if code = 0x22 then "\\\""
  else if code = 0x5c then "\\\\"
  else if code = 0x0a then "\\n"
  else if code = 0x0d then "\\r"
  else if code = 0x09 then "\\t"
  else if code = 0x0c then "\\f"
  else if code = 0x08 then "\\b"
  else if 0x20 ≤ code ∧ code ≤ 0x7e then Text.single code
  else if code < 0x10000 then unicodeEscape code
  else
    unicodeEscape (0xd800 + (code - 0x10000) / 1024)
      ++ unicodeEscape (0xdc00 + (code - 0x10000) % 1024)

def writeText (t : Text) : Text := "\"" ++ Text.concat (t.codes.map writeCode) ++ "\""

def writeDouble (x : Double) : Text :=
  if x.isNaN then "NaN"
  else if x.isInfinite then if x.isNegative then "-Infinity" else "Infinity"
  else x.text

/-- What starts a part that lies `depth` levels deep: a new line if there are lines. -/
def Layout.lineStart (layout : Layout) (depth : Nat) : Text :=
  match layout.indent with
  | some width => ⟨0x0a :: List.replicate (width * depth) 0x20⟩
  | none => ∅

/-- Written parts between brackets that stand `depth` levels deep. -/
def Layout.enclose (layout : Layout) (depth opening closing : Nat) (parts : List Text) : Text :=
  if parts.isEmpty then ⟨[opening, closing]⟩
  else
    Text.single opening ++ layout.lineStart (depth + 1)
      ++ Text.join (layout.comma ++ layout.lineStart (depth + 1)) parts
      ++ layout.lineStart depth ++ Text.single closing

/-- Fields as they are written: in order of their keys if the layout sorts. -/
def Layout.arrange (layout : Layout) (fields : List (Text × Text)) : List (Text × Text) :=
  if layout.sorted then fields.mergeSort (fun a b => a.1.le b.1) else fields

mutual
def writeAt (layout : Layout) (depth : Nat) : Value → Text
  | .null => "null"
  | .bool true => "true"
  | .bool false => "false"
  | .int n => Text.ofInt n
  | .float x => writeDouble x
  | .text t => writeText t
  | .array items => layout.enclose depth 0x5b 0x5d (writeItems layout depth items)
  | .object _ fields =>
    layout.enclose depth 0x7b 0x7d
      ((layout.arrange (writeFields layout depth fields)).map fun field =>
        writeText field.1 ++ layout.colon ++ field.2)
def writeItems (layout : Layout) (depth : Nat) : List Value → List Text
  | [] => []
  | v :: rest => writeAt layout (depth + 1) v :: writeItems layout depth rest
def writeFields (layout : Layout) (depth : Nat) : List (Text × Value) → List (Text × Text)
  | [] => []
  | (k, v) :: rest => (k, writeAt layout (depth + 1) v) :: writeFields layout depth rest
end

def write (layout : Layout) (value : Value) : Text := writeAt layout 0 value

end EventSchema.Json
