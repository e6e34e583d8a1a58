import EventSchema.Path

/-!
Fragments already read, by the path of their file.

A cache belongs to one run: it is opened before the first file is read and cleared at the end, so a
later run never sees what an earlier one has read.
-/

set_option autoImplicit false

namespace EventSchema

structure Cache (α : Type) where
  fragments : List (Path × α) := []
  opened : Bool := false
deriving Inhabited

namespace Cache

variable {α : Type}

def get? (path : Path) (cache : Cache α) : Option α :=
  (cache.fragments.find? fun entry => entry.1 = path).map Prod.snd

def has (path : Path) (cache : Cache α) : Bool := (cache.get? path).isSome

/-- Write a fragment: in place if the path is present, at the end otherwise. -/
def putFragment (path : Path) (fragment : α) : List (Path × α) → List (Path × α)
  | [] => [(path, fragment)]
  | (p, f) :: rest =>
    if p = path then (p, fragment) :: rest else (p, f) :: putFragment path fragment rest

def put (path : Path) (fragment : α) (cache : Cache α) : Cache α :=
  { cache with fragments := putFragment path fragment cache.fragments }

def size (cache : Cache α) : Nat := cache.fragments.length

def clear (cache : Cache α) : Cache α := { cache with fragments := [] }

/-- The cache opened for a run: empty, whatever it held. -/
def init (_ : Cache α) : Cache α := { fragments := [], opened := true }

end Cache

end EventSchema
