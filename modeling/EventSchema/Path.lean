import EventSchema.Text.Printable

/-!
File paths.

A path is a list of names under an anchor. Repeated slashes and single dots are dropped when a path
is read, double dots are kept: `resolve` is what removes them, together with a relative anchor. Two
slashes in front, not one and not three, are an anchor of their own.
-/

set_option autoImplicit false

namespace EventSchema

inductive Anchor where
  | here
  | top
  | doubleTop
deriving DecidableEq, Inhabited, Hashable, Repr

structure Path where
  anchor : Anchor
  names : List Text
deriving DecidableEq, Inhabited, Hashable, Repr

namespace Path

def dot : Text := "."

def dotDot : Text := ".."

def anchorOf (t : Text) : Anchor :=
  match t.codes with
  | 0x2f :: 0x2f :: 0x2f :: _ => .top
  | 0x2f :: 0x2f :: _ => .doubleTop
  | 0x2f :: _ => .top
  | _ => .here

def ofText (t : Text) : Path where
  anchor := anchorOf t
  names := (t.split Text.slash).filter fun name => !name.isEmpty && name != dot

instance : Coe Text Path := ⟨ofText⟩

def text (p : Path) : Text :=
  let names := Text.join "/" p.names
  match p.anchor with
  | .here => if p.names.isEmpty then dot else names
  | .top => "/" ++ names
  | .doubleTop => "//" ++ names

/-- A path below another; one with an anchor of its own stands alone. -/
def join (p q : Path) : Path :=
  match q.anchor with
  | .here => { p with names := p.names ++ q.names }
  | _ => q

/-- The entry of the given spelling below a directory. -/
def child (p : Path) (t : Text) : Path := p.join (ofText t)

def name (p : Path) : Text := p.names.getLast?.getD ∅

def parent (p : Path) : Path := { p with names := p.names.dropLast }

/-- The names left when every double dot takes away the name in front of it. `done` holds the names
so far, last one first. -/
def normalize (done : List Text) : List Text → List Text
  | [] => done.reverse
  | name :: rest =>
    if name = dotDot then normalize (done.drop 1) rest else normalize (name :: done) rest

def namesFrom (directory : List Text) (p : Path) : List Text :=
  match p.anchor with
  | .here => directory ++ p.names
  | _ => p.names

/-- The path made absolute and free of double dots. -/
def resolveFrom (directory : List Text) (p : Path) : Path where
  anchor := .top
  names := normalize [] (p.namesFrom directory)

/-- Why a name cannot be given to the file system. -/
inductive NameFault where
  /-- A zero code would end the name. -/
  | zeroCode
  /-- A surrogate has no bytes to be written with. -/
  | surrogate
deriving DecidableEq, Repr

/-- Surrogates stand for no byte, except those that were made from single bytes. -/
def unwritable (code : Nat) : Bool :=
  0xd800 ≤ code && code ≤ 0xdfff && !(0xdc80 ≤ code && code ≤ 0xdcff)

def nameFault? (p : Path) : Option NameFault :=
  if p.names.any fun name => name.codes.any unwritable then some .surrogate
  else if p.names.any fun name => name.codes.contains 0 then some .zeroCode
  else none

end Path

end EventSchema
