import EventSchema.Value.Basic

/-!
Merging objects, also objects that occur in several places of one document.

In a deep merge the source wins, field by field, wherever it says something. Where both sides hold an
object the merge goes on inside it, and everywhere else the value of the source replaces that of the
destination. Lists are replaced as a whole. The fields of the destination keep their places and new
fields follow in the order of the source; the merged object is the destination's, so its mark stays.

The marked objects of a document are kept in step by two rules. First, a change of the document at
one place is followed by `refresh` with the objects found there, which replaces every other
occurrence of the same mark. Second, before parts of two documents are combined, the marks of one
are moved above those of the other, so that equal marks always mean the same object.

Objects inside lists are never changed in place, so marks are neither given nor looked for there. A
document without marks is its own refreshment, and merging is then merging of plain values.
-/

set_option autoImplicit false

namespace EventSchema.Value

/-! ### Deep merge -/

mutual
def merge (dest : Value) : Value → Value
  | object mark source => match dest with
    | object own fields => object own (mergeFields fields source)
    | _ => object mark source
  | source => source
def mergeFields (dest : List (Text × Value)) : List (Text × Value) → List (Text × Value)
  | [] => dest
  | (k, v) :: rest =>
    mergeFields
      (Entries.put k
        (match Entries.get? k dest with
          | some w => merge w v
          | none => v) dest)
      rest
end

/-- The destination after a merge: unchanged unless both sides are objects. -/
def mergeInto (dest source : Value) : Value :=
  match dest, source with
  | object _ _, object _ _ => merge dest source
  | _, _ => dest

/-! ### Objects in several places -/

mutual
def bound : Value → Nat
  | object (some m) fields => max (m + 1) (boundFields fields)
  | object none fields => boundFields fields
  | _ => 0
def boundFields : List (Text × Value) → Nat
  | [] => 0
  | (_, v) :: rest => max (bound v) (boundFields rest)
end

mutual
def shift (amount : Nat) : Value → Value
  | object mark fields => object (mark.map (· + amount)) (shiftFields amount fields)
  | v => v
def shiftFields (amount : Nat) : List (Text × Value) → List (Text × Value)
  | [] => []
  | (k, v) :: rest => (k, shift amount v) :: shiftFields amount rest
end

mutual
/-- The value copied on its own, so that no part of it occurs anywhere else. -/
def unshared : Value → Value
  | object _ fields => object none (unsharedFields fields)
  | v => v
def unsharedFields : List (Text × Value) → List (Text × Value)
  | [] => []
  | (k, v) :: rest => (k, unshared v) :: unsharedFields rest
end

mutual
def mark (next : Nat) : Value → Value × Nat
  | object _ fields =>
    let (marked, after) := markFields (next + 1) fields
    (object (some next) marked, after)
  | v => (v, next)
def markFields (next : Nat) : List (Text × Value) → List (Text × Value) × Nat
  | [] => ([], next)
  | (k, v) :: rest =>
    let (marked, after) := mark next v
    let (others, last) := markFields after rest
    ((k, marked) :: others, last)
end

/-- Marked objects with their present content. -/
abbrev Occurrences := List (Nat × Value)

mutual
def occurrences : Value → Occurrences
  | object (some m) fields => (m, object (some m) fields) :: occurrencesFields fields
  | object none fields => occurrencesFields fields
  | _ => []
def occurrencesFields : List (Text × Value) → Occurrences
  | [] => []
  | (_, v) :: rest => occurrences v ++ occurrencesFields rest
end

def current? (known : Occurrences) : Option Nat → Option Value
  | some m => (known.find? fun o => o.1 == m).map Prod.snd
  | none => none

mutual
/-- Every marked object that is among those given replaced by its present content. -/
def refresh (known : Occurrences) : Value → Value
  | object m fields => match current? known m with
    | some v => v
    | none => object m (refreshFields known fields)
  | v => v
def refreshFields (known : Occurrences) : List (Text × Value) → List (Text × Value)
  | [] => []
  | (k, v) :: rest => (k, refresh known v) :: refreshFields known rest
end

/-- Fields after one of them was changed in place: the marked objects below it show everywhere. -/
def putShared (key : Text) (value : Value) (fields : Fields) : Fields :=
  refreshFields (occurrences value) (Entries.put key value fields)

/-- A value merged under a key: over an object that is there if both are objects, in place of
whatever is there otherwise. `later` holds fields still to be merged, which may share objects with
those that change now. Gives the fields and what is still to come. -/
def overlayOne (key : Text) (value : Value) (fields later : Fields) : Fields × Fields :=
  match Entries.get? key fields, value with
  | some (object mark base), object _ _ =>
    let merged := merge (object mark base) value
    (putShared key merged fields, refreshFields (occurrences merged) later)
  | _, _ => (Entries.put key value fields, later)

@[simp]
theorem refreshFields_length (known : Occurrences) (fields : List (Text × Value)) :
    (refreshFields known fields).length = fields.length := by
  induction fields with
  | nil => simp [refreshFields]
  | cons head rest ih =>
    obtain ⟨k, v⟩ := head
    simp [refreshFields, ih]

theorem overlayOne_later_length (key : Text) (value : Value) (fields later : Fields) :
    (overlayOne key value fields later).2.length = later.length := by
  unfold overlayOne
  split <;> simp

def overlay (fields : Fields) (source : List (Text × Value)) : Fields :=
  match source with
  | [] => fields
  | (key, value) :: later =>
    overlay (overlayOne key value fields later).1 (overlayOne key value fields later).2
termination_by source.length
decreasing_by simp [overlayOne_later_length]

end EventSchema.Value
