import EventSchema.Fragment.Aliased
import EventSchema.Fragment.Annotations
import EventSchema.Tree

/-!
Reading schema files.

A schema file holds one JSON object in UTF-8. A fragment is the object of a file with its annotations
applied; it is read once in a run and kept under the resolved path of its file. Whoever reads it is given
the object that the cache holds, and copies it before changing anything in it.
-/

set_option autoImplicit false

namespace EventSchema

namespace Tree

/-- Stop if a path cannot be given to the file system. -/
def checkName (p : Path) : Except Fault Unit :=
  match p.nameFault? with
  | some fault => misused fault.misuse
  | none => .ok ()

def resolveNamed (tree : Tree) (p : Path) : Except Fault Path := do
  checkName p
  return tree.resolve p

def content (tree : Tree) (p : Path) : Except Fault (List UInt8) := do
  checkName p
  match tree.node? p with
  | .ok (.file bytes) => .ok bytes
  | .ok (.folder _) => .error (.file (.isFolder p))
  | .error .missing => .error (.file (.missing p))
  | .error .notFolder => .error (.file (.notFolder p))

end Tree

namespace Fragment

/-- Line ends made uniform: a carriage return, alone or before a line feed, is a line feed. -/
def uniformLines : List Nat → List Nat
  | 0x0d :: 0x0a :: rest => 0x0a :: uniformLines rest
  | c :: rest => (if c = 0x0d then 0x0a else c) :: uniformLines rest
  | [] => []

def parse (file : Path) (bytes : List UInt8) : Except Fault Fields :=
  match Utf8.decode bytes with
  | .error fault => .error (.document (.notJson (.utf8 fault) file))
  | .ok text =>
    match Json.read ⟨uniformLines text.codes⟩ with
    | .fault fault => .error (.document (.notJson (.json fault) file))
    | .hugeNumber => misused .content
    | .value (.object _ fields) => .ok fields
    | .value given => .error (.document (.notObject given file))

def readObject (tree : Tree) (file : Path) : Except Fault Fields := do
  parse file (← tree.content file)

def ofFile (tree : Tree) (file : Path) : Except Fault Fields := do
  annotate (some file) (← readObject tree file)

/-- The fragment of a file as the cache holds it, which is read if it was not before. -/
def borrow (tree : Tree) (file : Path) : Act Aliased := do
  let key ← tree.resolveNamed file
  match (← get).cache.get? key with
  | some fragment => return .cached key fragment
  | none =>
    note (.fileRead key)
    let fragment ← ofFile tree key
    modify fun run => { run with cache := run.cache.put key fragment }
    return .cached key fragment

def load (tree : Tree) (file : Path) : Act Fields := do return (← borrow tree file).copy.fields

end Fragment

end EventSchema
