import EventSchema.Text.Basic

/-!
Entries under text keys, in the order in which the keys first came.

Writing to a key that is present keeps its place, and a key that was removed comes last when it is
written again. Lookups see the first entry of a key; `put` never makes a second one.
-/

set_option autoImplicit false

namespace EventSchema

/-- Values under keys, in the order of the keys. -/
abbrev Entries (α : Type) := List (Text × α)

namespace Entries

variable {α β : Type}

def get? (key : Text) : Entries α → Option α
  | [] => none
  | (k, v) :: rest => if k = key then some v else get? key rest

def has (key : Text) (entries : Entries α) : Bool := (get? key entries).isSome

def keys (entries : Entries α) : List Text := entries.map Prod.fst

def values (entries : Entries α) : List α := entries.map Prod.snd

/-- Write a value: in place if the key is present, at the end otherwise. -/
def put (key : Text) (value : α) : Entries α → Entries α
  | [] => [(key, value)]
  | (k, v) :: rest => if k = key then (k, value) :: rest else (k, v) :: put key value rest

def erase (key : Text) (entries : Entries α) : Entries α := entries.filter fun e => e.1 ≠ key

def putNew (key : Text) (value : α) (entries : Entries α) : Entries α :=
  if has key entries then entries else put key value entries

/-- The entries of a list of pairs, a later value of a key replacing the earlier one. -/
def ofList (pairs : List (Text × α)) : Entries α :=
  pairs.foldl (fun entries pair => put pair.1 pair.2 entries) []

def mapValues (f : α → β) (entries : Entries α) : Entries β := entries.map fun e => (e.1, f e.2)

@[simp]
theorem get?_put_self (key : Text) (value : α) (entries : Entries α) :
    get? key (put key value entries) = some value := by
  induction entries with
  | nil => simp [put, get?]
  | cons head rest ih =>
    obtain ⟨k, v⟩ := head
    by_cases same : k = key
    · simp [put, get?, same]
    · simp [put, get?, same, ih]

theorem get?_put_of_ne {key other : Text} (different : key ≠ other) (value : α)
    (entries : Entries α) : get? other (put key value entries) = get? other entries := by
  induction entries with
  | nil => simp [put, get?, different]
  | cons head rest ih =>
    obtain ⟨k, v⟩ := head
    by_cases same : k = key
    · subst same
      simp [put, get?, different]
    · rw [put, if_neg same]
      by_cases found : k = other
      · simp [get?, found]
      · simp [get?, found, ih]

/-- Writing leaves the keys as they are, or adds the key at the end. -/
theorem keys_put (key : Text) (value : α) (entries : Entries α) :
    keys (put key value entries) =
      if has key entries then keys entries else keys entries ++ [key] := by
  induction entries with
  | nil => simp [put, keys, has, get?]
  | cons head rest ih =>
    obtain ⟨k, v⟩ := head
    by_cases same : k = key
    · simp [put, keys, has, get?, same]
    · simp only [put, keys, has, get?, same, if_false, List.map_cons] at ih ⊢
      by_cases present : (get? key rest).isSome = true
      · simp [ih, present]
      · simp [ih, present]

theorem mem_keys_of_has {key : Text} {entries : Entries α} (present : has key entries = true) :
    key ∈ keys entries := by
  induction entries with
  | nil => simp [has, get?] at present
  | cons head rest ih =>
    obtain ⟨k, v⟩ := head
    by_cases same : k = key
    · simp [keys, same]
    · have later : has key rest = true := by simpa [has, get?, same] using present
      have := ih later
      simp only [keys] at this ⊢
      exact List.mem_cons_of_mem _ this

end Entries

end EventSchema
