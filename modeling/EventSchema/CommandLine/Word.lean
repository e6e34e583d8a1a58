import EventSchema.CommandLine.Flag
import EventSchema.Text.Numeral

/-!
The words of a command line.

A word that starts with a dash is a flag, unless it is a single dash, looks like a negative number or
holds a blank. Two dashes end the flags: every word after them is plain. Short flags that take no
value may be written together behind one dash, and a value may follow the last of them at once.
-/

set_option autoImplicit false

namespace EventSchema.CommandLine

inductive Word where
  | plain
  | separator
  | unknown
  /-- A flag in one of its spellings, and the value attached to it. -/
  | flag (flag : Flag) (isShort : Bool) (attached : Option Text)
deriving DecidableEq, Repr

namespace Word

def dash : Nat := 0x2d

def areDigits (codes : List Nat) : Bool :=
  !codes.isEmpty && codes.all fun code => (Text.digitValue? code).isSome

/-- Digits with a minus sign, and perhaps a point before the last of them. A line feed may follow. -/
def isNegativeNumber (t : Text) : Bool :=
  match t.codes with
  | [] => false
  | first :: codes =>
    let codes := if codes.getLast? = some 0x0a then codes.dropLast else codes
    let whole := codes.takeWhile (· ≠ 0x2e)
    first = dash &&
      match codes.dropWhile (· ≠ 0x2e) with
      | [] => areDigits codes
      | _ :: places => (whole.isEmpty || areDigits whole) && areDigits places

def atEquals? (t : Text) : Option (Text × Text) :=
  match t.codes.dropWhile (· ≠ 0x3d) with
  | [] => none
  | _ :: value => some (⟨t.codes.takeWhile (· ≠ 0x3d)⟩, ⟨value⟩)

def isShortSpelling (t : Text) : Bool := !t.startsWith "--"

/-- The flags that an incomplete spelling can mean, each with the spelling meant. -/
def candidates (t : Text) : List (Text × Word) :=
  if isShortSpelling t then
    match Flag.ofSpelling? ⟨t.codes.take 2⟩ with
    | some f => [(⟨t.codes.take 2⟩, .flag f true (some ⟨t.codes.drop 2⟩))]
    | none => []
  else
    let (start, value) : Text × Option Text := match atEquals? t with
      | some (start, value) => (start, some value)
      | none => (t, none)
    (Flag.startedBy start).map fun entry => (entry.1, .flag entry.2 false value)

/-- The flag of a full spelling, with the value attached after an equals sign. -/
def ofFull? (t : Text) : Option Word :=
  match Flag.ofSpelling? t with
  | some f => some (.flag f (isShortSpelling t) none)
  | none => do
    let (spelling, value) ← atEquals? t
    let f ← Flag.ofSpelling? spelling
    return .flag f (isShortSpelling spelling) (some value)

def classify (t : Text) : Except UsageFault Word :=
  if t.length < 2 || !t.startsWith "-" then .ok .plain
  else
    match ofFull? t with
    | some word => .ok word
    | none =>
      match candidates t with
      | [candidate] => .ok candidate.2
      | [] =>
        .ok (if isNegativeNumber t || t.contains " " then .plain else .unknown)
      | several => .error (.ambiguous t (several.map Prod.fst))

def classifyAll : List Text → Except UsageFault (List (Text × Word))
  | [] => .ok []
  | t :: rest =>
    if t = "--" then .ok ((t, .separator) :: rest.map fun t => (t, .plain))
    else do return (t, ← classify t) :: (← classifyAll rest)

end Word

/-- The flags of one word with their values; `pending` is a last flag whose value is the next word. -/
structure Group where
  flags : List (Flag × Option Text)
  pending : Option Flag := none

namespace Group

def ofFlag (f : Flag) : Group :=
  if f.takesValue then { flags := [], pending := some f } else { flags := [(f, none)] }

def ofShort (f : Flag) (codes : List Nat) : Except UsageFault Group :=
  match codes with
  | [] => .ok (ofFlag f)
  | code :: rest =>
    if f.takesValue then .ok { flags := [(f, some ⟨code :: rest⟩)] }
    else
      match Flag.ofSpelling? ⟨[Word.dash, code]⟩ with
      | some next => do
        let group ← ofShort next rest
        return { group with flags := (f, none) :: group.flags }
      | none => .error (.ignoresValue f ⟨code :: rest⟩)

def ofAttached (f : Flag) (isShort : Bool) (attached : Option Text) : Except UsageFault Group :=
  match attached with
  | none => .ok (ofFlag f)
  | some t =>
    if f.takesValue then .ok { flags := [(f, some t)] }
    else if isShort && !t.isEmpty then ofShort f t.codes
    else .error (.ignoresValue f t)

end Group

end EventSchema.CommandLine
