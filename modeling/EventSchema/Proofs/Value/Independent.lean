import EventSchema.Proofs.Attribute
import EventSchema.Proofs.Value.Marks

/-!
Fields of which some share nothing with the others.

Where the fields of some names have no object in common with the others, an overlay changes the others as if
those fields were not there. So what is said under such names makes no difference to the rest.
-/

set_option autoImplicit false

namespace EventSchema

/-! ### The other fields -/

namespace Entries

variable {names : List Text} {key : Text} {value : Value} {fields : Fields}

theorem beside_cons (names : List Text) (entry : Text × Value) (rest : Fields) :
    beside names (entry :: rest) = if entry.1 ∈ names then beside names rest else entry :: beside names rest := by
  unfold beside
  rw [List.filter_cons]
  by_cases named : entry.1 ∈ names <;> simp [named]

theorem mem_beside {entry : Text × Value} : entry ∈ beside names fields ↔ entry ∈ fields ∧ entry.1 ∉ names := by
  unfold beside
  rw [List.mem_filter]
  simp

theorem beside_put_of_mem (named : key ∈ names) (value : Value) (fields : Fields) :
    beside names (put key value fields) = beside names fields := by
  induction fields with
  | nil => rw [put, beside_cons, if_pos named]
  | cons head rest ih =>
      obtain ⟨own, old⟩ := head
      rw [put]
      by_cases same : own = key
      · subst same
        rw [if_pos rfl, beside_cons, beside_cons, if_pos named, if_pos named]
      · rw [if_neg same, beside_cons, beside_cons, ih]

theorem beside_put_of_not_mem (unnamed : key ∉ names) (value : Value) (fields : Fields) :
    beside names (put key value fields) = put key value (beside names fields) := by
  induction fields with
  | nil =>
      rw [put, beside_cons, if_neg unnamed]
      rfl
  | cons head rest ih =>
      obtain ⟨own, old⟩ := head
      rw [put, beside_cons]
      by_cases same : own = key
      · subst same
        rw [if_pos rfl, beside_cons, if_neg unnamed, if_neg unnamed, put, if_pos rfl]
      · rw [if_neg same, beside_cons, ih]
        by_cases named : own ∈ names
        · rw [if_pos named, if_pos named]
        · rw [if_neg named, if_neg named, put, if_neg same]

end Entries

namespace Value

variable {c : Nat → Prop} {names : List Text} {fields source : Fields}

theorem beside_refreshFields (names : List Text) (known : Occurrences) (fields : Fields) :
    Entries.beside names (refreshFields known fields) = refreshFields known (Entries.beside names fields) := by
  induction fields with
  | nil => rw [refreshFields]; rfl
  | cons head rest ih =>
      rw [refreshFields, Entries.beside_cons, Entries.beside_cons, ih]
      by_cases named : head.1 ∈ names
      · rw [if_pos named, if_pos named]
      · rw [if_neg named, if_neg named, refreshFields]

theorem sameBeside_of_beside {others : Fields}
    (same : unsharedFields (Entries.beside names others) = unsharedFields (Entries.beside names fields)) :
    Entries.SameBeside names (unsharedFields fields) (unsharedFields others) := by
  intro name unnamed
  have told := congrArg (Entries.get? name) same
  rwa [get?_unsharedFields, get?_unsharedFields, Entries.get?_beside, Entries.get?_beside, if_neg unnamed,
    if_neg unnamed, ← get?_unsharedFields, ← get?_unsharedFields] at told

theorem beside_shiftFields (names : List Text) (amount : Nat) (fields : Fields) :
    Entries.beside names (shiftFields amount fields) = shiftFields amount (Entries.beside names fields) := by
  induction fields with
  | nil => rw [shiftFields]; rfl
  | cons head rest ih =>
      rw [shiftFields, Entries.beside_cons, Entries.beside_cons, ih]
      by_cases named : head.1 ∈ names
      · rw [if_pos named, if_pos named]
      · rw [if_neg named, if_neg named, shiftFields]

theorem MarkedFields.beside {s : Nat → Prop} (marked : MarkedFields s fields) :
    MarkedFields s (Entries.beside names fields) :=
  markedFields_iff.mpr fun entry member => markedFields_iff.mp marked entry (Entries.mem_beside.mp member).1

/-! ### Names that share nothing with the others -/

/-- No object is under one of the names and under another name as well. -/
def Independent (names : List Text) (fields : Fields) : Prop :=
  ∀ entry ∈ fields, entry.1 ∈ names → ∀ other ∈ fields, other.1 ∉ names →
    ∀ known ∈ occurrences entry.2, ∀ known' ∈ occurrences other.2, known.1 ≠ known'.1

instance (names : List Text) : DecidablePred (Independent names) := fun fields => by
  unfold Independent
  infer_instance

def Split (c : Nat → Prop) (names : List Text) (fields : Fields) : Prop :=
  ∀ entry ∈ fields, Marked (fun m => c m ↔ entry.1 ∈ names) entry.2

theorem independent_iff : Independent names fields ↔ ∃ c, Split c names fields := by
  constructor
  · intro independent
    refine ⟨fun m => ∃ entry ∈ fields, entry.1 ∈ names ∧ ∃ known ∈ occurrences entry.2, known.1 = m, ?_⟩
    intro other member known among
    constructor
    · rintro ⟨entry, held, named, known', own, same⟩
      by_contra unnamed
      exact independent entry held named other member unnamed known' own known among same
    · intro named
      exact ⟨other, member, named, known, among, rfl⟩
  · rintro ⟨c, split⟩ entry member named other member' unnamed known among known' among' same
    exact unnamed ((split other member' known' among').mp (same ▸ (split entry member known among).mpr named))

/-- Without names no mark is told apart, so where every mark is there is none. -/
theorem plainFields_iff_split : PlainFields fields ↔ Split (fun _ => True) [] fields := by
  rw [plainFields_iff]
  refine forall₂_congr fun entry member => ⟨Plain.marked, fun marked => Marked.plain _ (marked.mono ?_)⟩
  intro m all
  exact List.not_mem_nil (all.mp trivial)

/-- Attributes under names of their own, of which the given ones share nothing with the others. -/
structure Divided (names : List Text) (attributes : Fields) : Prop where
  independent : Independent names attributes
  distinct : Entries.Distinct attributes

namespace Split

theorem put (split : Split c names fields) {key : Text} {value : Value}
    (given : Marked (fun m => c m ↔ key ∈ names) value) : Split c names (Entries.put key value fields) := by
  intro entry member
  rcases Entries.mem_of_mem_put member with rfl | before
  · exact given
  · exact split entry before

theorem of_get? (split : Split c names fields) (key : Text) :
    ∀ value ∈ Entries.get? key fields, Marked (fun m => c m ↔ key ∈ names) value :=
  fun _ found => split _ (Entries.mem_of_get? found)

theorem orEmpty (split : Split c names fields) (key : Text) :
    Marked (fun m => c m ↔ key ∈ names) (Entries.orEmpty key fields) := by
  rw [Entries.orEmpty, Entries.getOr]
  cases found : Entries.get? key fields with
  | none => exact marked_record.mpr markedFields_nil
  | some value => exact split.of_get? key value found

variable {key : Text} {known : Occurrences}

def Known (c : Nat → Prop) (names : List Text) (key : Text) (known : Occurrences) : Prop :=
  ∀ entry ∈ known, (c entry.1 ↔ key ∈ names) ∧ Marked (fun m => c m ↔ key ∈ names) entry.2

theorem known_occurrences {value : Value} (given : Marked (fun m => c m ↔ key ∈ names) value) :
    Known c names key (occurrences value) :=
  fun entry member => ⟨given entry member, given.inside value entry member⟩

theorem refresh_apart (own : Known c names key known) {other : Text} (apart : ¬(other ∈ names ↔ key ∈ names))
    {value : Value} (held : Marked (fun m => c m ↔ other ∈ names) value) : refresh known value = value :=
  Marked.refresh_apart (fun entry member also => apart (also.symm.trans (own entry member).1)) value held

theorem refreshFields (split : Split c names fields) (own : Known c names key known) :
    Split c names (refreshFields known fields) := by
  intro entry member
  obtain ⟨value, before, same⟩ := exists_of_mem_refreshFields member
  have held := split _ before
  rw [same]
  by_cases alike : entry.1 ∈ names ↔ key ∈ names
  · refine Marked.refresh (fun object among _ => ?_) value held
    exact (own object among).2.mono fun m marks => marks.trans alike.symm
  · rw [refresh_apart own alike held]
    exact held

theorem beside_refreshFields (split : Split c names fields) (own : Known c names key known) (named : key ∈ names) :
    Entries.beside names (Value.refreshFields known fields) = Entries.beside names fields := by
  rw [Value.beside_refreshFields]
  refine MarkedFields.refresh_apart (s := fun m => ¬c m) (fun entry member apart => ?_) _ ?_
  · exact apart ((own entry member).1.mpr named)
  · refine markedFields_iff.mpr fun entry member => ?_
    obtain ⟨held, unnamed⟩ := Entries.mem_beside.mp member
    exact (split entry held).mono fun m marks also => unnamed (marks.mp also)

/-! ### Overlays -/

variable {value : Value} {later : Fields}

theorem overlayOne (split : Split c names fields) (rest : Split c names later)
    (given : Marked (fun m => c m ↔ key ∈ names) value) :
    Split c names (overlayOne key value fields later).1 ∧ Split c names (overlayOne key value fields later).2 := by
  unfold Value.overlayOne
  split
  · rename_i found
    have merged := Marked.merge _ _ (split.of_get? key _ found) given
    exact ⟨(split.put merged).refreshFields (known_occurrences merged), rest.refreshFields (known_occurrences merged)⟩
  · exact ⟨split.put given, rest⟩

theorem beside_overlayOne (split : Split c names fields) (rest : Split c names later)
    (given : Marked (fun m => c m ↔ key ∈ names) value) (named : key ∈ names) :
    Entries.beside names (Value.overlayOne key value fields later).1 = Entries.beside names fields ∧
      Entries.beside names (Value.overlayOne key value fields later).2 = Entries.beside names later := by
  unfold Value.overlayOne
  split
  · rename_i found
    have merged := Marked.merge _ _ (split.of_get? key _ found) given
    refine ⟨?_, rest.beside_refreshFields (known_occurrences merged) named⟩
    dsimp only
    rw [putShared, (split.put merged).beside_refreshFields (known_occurrences merged) named,
      Entries.beside_put_of_mem named]
  · exact ⟨Entries.beside_put_of_mem named _ _, rfl⟩

end Split

theorem beside_overlayOne {key : Text} (unnamed : key ∉ names) (value : Value) (fields later : Fields) :
    Entries.beside names (overlayOne key value fields later).1 =
        (overlayOne key value (Entries.beside names fields) (Entries.beside names later)).1 ∧
      Entries.beside names (overlayOne key value fields later).2 =
        (overlayOne key value (Entries.beside names fields) (Entries.beside names later)).2 := by
  have same : Entries.get? key (Entries.beside names fields) = Entries.get? key fields := by
    rw [Entries.get?_beside, if_neg unnamed]
  unfold overlayOne
  rw [same]
  split
  · dsimp only
    rw [putShared, putShared, beside_refreshFields, beside_refreshFields, Entries.beside_put_of_not_mem unnamed]
    exact ⟨rfl, rfl⟩
  · exact ⟨Entries.beside_put_of_not_mem unnamed _ _, rfl⟩

/-- An overlay leaves the names apart, and the other fields come to what they come to on their own. -/
theorem Split.overlay (split : Split c names fields) (given : Split c names source) :
    Split c names (overlay fields source) ∧ Entries.beside names (Value.overlay fields source) =
      Value.overlay (Entries.beside names fields) (Entries.beside names source) := by
  induction fields, source using Value.overlay.induct with
  | case1 fields =>
      rw [Value.overlay, show Entries.beside names [] = [] from rfl, Value.overlay]
      exact ⟨split, rfl⟩
  | case2 fields key value later ih =>
      obtain ⟨first, rest⟩ := List.forall_mem_cons.mp given
      obtain ⟨kept, kept'⟩ := split.overlayOne rest first
      obtain ⟨whole, same⟩ := ih kept kept'
      rw [Value.overlay, Entries.beside_cons]
      refine ⟨whole, same.trans ?_⟩
      by_cases named : key ∈ names
      · obtain ⟨here, there⟩ := split.beside_overlayOne rest first named
        rw [if_pos named, here, there]
      · obtain ⟨here, there⟩ := Value.beside_overlayOne named value fields later
        rw [if_neg named, Value.overlay, here, there]

/-- Two sets of fields whose marks were moved apart keep the names apart together. -/
theorem Independent.exists_split {amount : Nat} (independent : Independent names fields)
    (below : MarkedFields (· < amount) fields) (given : Independent names source) :
    ∃ c, Split c names fields ∧ Split c names (shiftFields amount source) := by
  obtain ⟨c, split⟩ := independent_iff.mp independent
  obtain ⟨c', split'⟩ := independent_iff.mp given
  refine ⟨fun m => if m < amount then c m else c' (m - amount), fun entry member known among => ?_,
    fun entry member => ?_⟩
  · dsimp only
    rw [if_pos (markedFields_iff.mp below entry member known among)]
    exact split entry member known among
  · obtain ⟨value, before, same⟩ := exists_of_mem_shiftFields member
    rw [same]
    refine (Marked.shift amount value (split' _ before)).mono ?_
    rintro _ ⟨k, marks, rfl⟩
    dsimp only
    rw [if_neg (Nat.not_lt.mpr (Nat.le_add_left ..)), Nat.add_sub_cancel]
    exact marks

/-- Laid over fields that do the same, their marks moved above, fields leave the names apart. -/
theorem Independent.overlay {amount : Nat} (independent : Independent names fields)
    (below : MarkedFields (· < amount) fields) (given : Independent names source) :
    Independent names (overlay fields (shiftFields amount source)) := by
  obtain ⟨c, split, moved⟩ := independent.exists_split below given
  exact independent_iff.mpr ⟨c, (split.overlay moved).1⟩

/-- Fields written anew without new marks leave the names apart. -/
theorem Independent.related (independent : Independent names fields) {results : Fields}
    (related : Entries.Related (fun _ value result => ∀ s, Marked s value → Marked s result) fields results) :
    Independent names results := by
  obtain ⟨c, split⟩ := independent_iff.mp independent
  refine independent_iff.mpr ⟨c, fun entry member => ?_⟩
  obtain ⟨value, before, kept⟩ := related.mem_right member
  exact kept _ (split _ before)

theorem Independent.mapValues (independent : Independent names fields) {change : Value → Value}
    (kept : ∀ s value, Marked s value → Marked s (change value)) :
    Independent names (Entries.mapValues change fields) :=
  independent.related (Entries.related_mapValues fun entry _ s => kept s entry.2)

end Value

end EventSchema
