import EventSchema.Proofs.Entries
import EventSchema.Value.Sharing

/-!
Plain values and their merging.

A value is plain if no part of it occurs anywhere else. Keeping shared objects in step does nothing
to a plain value, so a change under a key is then just that, and merging keeps plain what is plain.
-/

set_option autoImplicit false

namespace EventSchema.Value

/-- Nothing in the value carries a mark. -/
def Plain (value : Value) : Prop := value.unshared = value

def PlainFields (fields : Fields) : Prop := unsharedFields fields = fields

theorem plain_object {mark : Option Nat} {fields : Fields} :
    Plain (.object mark fields) ↔ mark = none ∧ PlainFields fields := by
  unfold Plain PlainFields
  rw [unshared, Value.object.injEq]
  exact and_congr_left' eq_comm

theorem plain_text (text : Text) : Plain (.text text) := rfl

theorem plainFields_nil : PlainFields [] := rfl

theorem plainFields_cons {entry : Text × Value} {rest : Fields} :
    PlainFields (entry :: rest) ↔ Plain entry.2 ∧ PlainFields rest := by
  obtain ⟨key, value⟩ := entry
  unfold PlainFields Plain
  rw [unsharedFields, List.cons.injEq, Prod.mk.injEq]
  exact and_congr_left' (and_iff_right rfl)

theorem plainFields_iff {fields : Fields} :
    PlainFields fields ↔ ∀ entry ∈ fields, Plain entry.2 := by
  induction fields with
  | nil => exact iff_of_true plainFields_nil (fun entry impossible => by cases impossible)
  | cons head rest ih => rw [plainFields_cons, ih, List.forall_mem_cons]

theorem PlainFields.of_get? {fields : Fields} (plain : PlainFields fields) {key : Text}
    {value : Value} (found : Entries.get? key fields = some value) : Plain value :=
  plainFields_iff.mp plain _ (Entries.mem_of_get? found)

theorem PlainFields.inner_orEmpty {fields : Fields} (plain : PlainFields fields) (key : Text) :
    PlainFields (Entries.orEmpty key fields).inner := by
  rw [Entries.orEmpty, Entries.getOr]
  cases found : Entries.get? key fields with
  | none => exact plainFields_nil
  | some value =>
      cases value with
      | object mark inner => exact (plain_object.mp (plain.of_get? found)).2
      | null | bool _ | int _ | float _ | text _ | array _ => exact plainFields_nil

theorem PlainFields.attributes {item : Fields} (plain : PlainFields item) :
    PlainFields (Entries.attributes item) := by
  rw [Entries.attributes_eq_inner]
  exact plain.inner_orEmpty "attributes"

theorem PlainFields.filter {fields : Fields} (plain : PlainFields fields)
    (keep : Text × Value → Bool) : PlainFields (fields.filter keep) :=
  plainFields_iff.mpr fun entry member =>
    plainFields_iff.mp plain entry (List.mem_of_mem_filter member)

theorem PlainFields.put {fields : Fields} (plain : PlainFields fields) {value : Value}
    (plainValue : Plain value) (key : Text) : PlainFields (Entries.put key value fields) := by
  induction fields with
  | nil => exact plainFields_cons.mpr ⟨plainValue, plainFields_nil⟩
  | cons head rest ih =>
      obtain ⟨other, old⟩ := head
      have split := plainFields_cons.mp plain
      rw [Entries.put]
      by_cases same : other = key
      · rw [if_pos same]
        exact plainFields_cons.mpr ⟨plainValue, split.2⟩
      · rw [if_neg same]
        exact plainFields_cons.mpr ⟨split.1, ih split.2⟩

theorem PlainFields.putNew {fields : Fields} (plain : PlainFields fields) {value : Value}
    (plainValue : Plain value) (key : Text) : PlainFields (Entries.putNew key value fields) := by
  unfold Entries.putNew
  split
  · exact plain
  · exact plain.put plainValue key

/-! ### Nothing to keep in step -/

mutual
theorem occurrences_of_plain : (value : Value) → Plain value → occurrences value = []
  | .object mark fields, plain => by
      obtain ⟨unmarked, inside⟩ := plain_object.mp plain
      subst unmarked
      rw [occurrences]
      exact occurrencesFields_of_plain fields inside
  | .null, _ | .bool _, _ | .int _, _ | .float _, _ | .text _, _ | .array _, _ => by
      simp only [occurrences]
theorem occurrencesFields_of_plain : (fields : List (Text × Value)) → PlainFields fields →
    occurrencesFields fields = []
  | [], _ => by rw [occurrencesFields]
  | (key, value) :: rest, plain => by
      have split := plainFields_cons.mp plain
      rw [occurrencesFields, occurrences_of_plain value split.1,
        occurrencesFields_of_plain rest split.2, List.nil_append]
end

mutual
theorem refresh_nil : (value : Value) → refresh [] value = value
  | .object mark fields => by
      have unknown : current? [] mark = none := by cases mark <;> rfl
      rw [refresh, unknown, refreshFields_nil fields]
  | .null | .bool _ | .int _ | .float _ | .text _ | .array _ => by simp only [refresh]
theorem refreshFields_nil : (fields : List (Text × Value)) → refreshFields [] fields = fields
  | [] => by rw [refreshFields]
  | (key, value) :: rest => by
      rw [refreshFields, refresh_nil value, refreshFields_nil rest]
end

mutual
theorem refresh_of_plain (known : Occurrences) : (value : Value) → Plain value → refresh known value = value
  | .object mark fields, plain => by
      obtain ⟨unmarked, inside⟩ := plain_object.mp plain
      subst unmarked
      rw [refresh, current?]
      dsimp only
      rw [refreshFields_of_plain known fields inside]
  | .null, _ | .bool _, _ | .int _, _ | .float _, _ | .text _, _ | .array _, _ => by
      simp only [refresh]
theorem refreshFields_of_plain (known : Occurrences) : (fields : List (Text × Value)) → PlainFields fields →
    refreshFields known fields = fields
  | [], _ => by rw [refreshFields]
  | (key, value) :: rest, plain => by
      have split := plainFields_cons.mp plain
      rw [refreshFields, refresh_of_plain known value split.1, refreshFields_of_plain known rest split.2]
end

theorem get?_unsharedFields (key : Text) (fields : Fields) :
    Entries.get? key (unsharedFields fields) = (Entries.get? key fields).map unshared := by
  induction fields with
  | nil => rfl
  | cons head rest ih =>
      rw [unsharedFields, Entries.get?_cons, Entries.get?_cons, ih]
      by_cases same : head.1 = key
      · rw [if_pos same, if_pos same, Option.map_some]
      · rw [if_neg same, if_neg same]

theorem keys_unsharedFields (fields : Fields) :
    Entries.keys (unsharedFields fields) = Entries.keys fields := by
  induction fields with
  | nil => rfl
  | cons head rest ih =>
      rw [unsharedFields]
      exact congrArg (head.1 :: ·) ih

theorem unsharedFields_eq_mapValues (fields : Fields) :
    unsharedFields fields = Entries.mapValues unshared fields := by
  induction fields with
  | nil => rw [unsharedFields]; rfl
  | cons head rest ih =>
      rw [unsharedFields, ih]
      rfl

theorem put_unsharedFields (key : Text) (value : Value) (fields : Fields) :
    Entries.put key value.unshared (unsharedFields fields) = unsharedFields (Entries.put key value fields) := by
  induction fields with
  | nil => rw [Entries.put, unsharedFields, Entries.put, unsharedFields, unsharedFields]
  | cons head rest ih =>
      obtain ⟨own, old⟩ := head
      rw [unsharedFields, Entries.put, Entries.put, ih]
      by_cases same : own = key
      · rw [if_pos same, if_pos same, unsharedFields]
      · rw [if_neg same, if_neg same, unsharedFields]

theorem inner_unshared (value : Value) : value.unshared.inner = unsharedFields value.inner := by
  cases value with
  | object mark fields => rw [unshared, inner, inner]
  | null | bool _ | int _ | float _ | text _ | array _ =>
      rw [unshared]
      · rfl
      · simp

theorem unshared_of_leaf {value : Value} (leaf : value.isObject = false) : value.unshared = value := by
  cases value with
  | object mark fields => cases leaf
  | null | bool _ | int _ | float _ | text _ | array _ =>
      rw [unshared]
      simp

theorem text_of_unshared {value : Value} {text : Text} (same : unshared value = .text text) :
    value = .text text := by
  cases value with
  | object mark fields =>
      rw [unshared] at same
      cases same
  | null | bool _ | int _ | float _ | text _ | array _ =>
      rw [unshared] at same
      · exact same
      · simp

theorem truthy_unshared (value : Value) : value.unshared.truthy = value.truthy := by
  cases value with
  | object mark fields =>
      rw [unshared, truthy, truthy]
      cases fields with
      | nil => rw [unsharedFields]
      | cons head rest =>
          rw [unsharedFields]
          rfl
  | null | bool _ | int _ | float _ | text _ | array _ =>
      rw [unshared]
      simp

theorem isObject_unshared (value : Value) : value.unshared.isObject = value.isObject := by
  cases value with
  | object mark fields =>
      rw [unshared]
      rfl
  | null | bool _ | int _ | float _ | text _ | array _ => rw [unshared_of_leaf rfl]

theorem isNull_unshared (value : Value) : value.unshared.isNull = value.isNull := by
  cases value with
  | object mark fields =>
      rw [unshared]
      rfl
  | null | bool _ | int _ | float _ | text _ | array _ =>
      rw [unshared]
      simp

mutual
theorem plain_unshared : (value : Value) → Plain value.unshared
  | .object mark fields => by
      rw [unshared]
      exact plain_object.mpr ⟨rfl, plainFields_unsharedFields fields⟩
  | .null | .bool _ | .int _ | .float _ | .text _ | .array _ => by
      rw [unshared]
      · rfl
      · nofun
theorem plainFields_unsharedFields : (fields : List (Text × Value)) → PlainFields (unsharedFields fields)
  | [] => by rw [unsharedFields]; rfl
  | (key, value) :: rest => by
      rw [unsharedFields]
      exact plainFields_cons.mpr ⟨plain_unshared value, plainFields_unsharedFields rest⟩
end

theorem keys_refreshFields (known : Occurrences) (fields : Fields) :
    Entries.keys (refreshFields known fields) = Entries.keys fields := by
  induction fields with
  | nil => rw [refreshFields]
  | cons head rest ih =>
      obtain ⟨key, value⟩ := head
      rw [refreshFields]
      exact congrArg (key :: ·) ih

theorem get?_refreshFields (known : Occurrences) (key : Text) (fields : Fields) :
    Entries.get? key (refreshFields known fields) = (Entries.get? key fields).map (refresh known) := by
  induction fields with
  | nil =>
      rw [refreshFields]
      rfl
  | cons head rest ih =>
      obtain ⟨other, value⟩ := head
      rw [refreshFields, Entries.get?_cons, Entries.get?_cons, ih]
      by_cases same : other = key <;> simp [same]

theorem get?_shiftFields (amount : Nat) (key : Text) (fields : Fields) :
    Entries.get? key (shiftFields amount fields) = (Entries.get? key fields).map (shift amount) := by
  induction fields with
  | nil =>
      rw [shiftFields]
      rfl
  | cons head rest ih =>
      rw [shiftFields, Entries.get?_cons, Entries.get?_cons, ih]
      by_cases same : head.1 = key
      · rw [if_pos same, if_pos same, Option.map_some]
      · rw [if_neg same, if_neg same]

theorem keys_shiftFields (amount : Nat) (fields : Fields) :
    Entries.keys (shiftFields amount fields) = Entries.keys fields := by
  induction fields with
  | nil => rw [shiftFields]
  | cons head rest ih =>
      rw [shiftFields]
      exact congrArg (head.1 :: ·) ih

theorem exists_of_mem_refreshFields {known : Occurrences} {fields : Fields} {entry : Text × Value}
    (member : entry ∈ refreshFields known fields) :
    ∃ value, (entry.1, value) ∈ fields ∧ entry.2 = refresh known value := by
  induction fields with
  | nil => cases member
  | cons head rest ih =>
      rw [refreshFields] at member
      rcases List.mem_cons.mp member with here | there
      · rw [here]
        exact ⟨head.2, List.mem_cons_self .., rfl⟩
      · obtain ⟨value, before, same⟩ := ih there
        exact ⟨value, List.mem_cons_of_mem _ before, same⟩

theorem exists_of_mem_shiftFields {amount : Nat} {fields : Fields} {entry : Text × Value}
    (member : entry ∈ shiftFields amount fields) :
    ∃ value, (entry.1, value) ∈ fields ∧ entry.2 = shift amount value := by
  induction fields with
  | nil => cases member
  | cons head rest ih =>
      rw [shiftFields] at member
      rcases List.mem_cons.mp member with here | there
      · rw [here]
        exact ⟨head.2, List.mem_cons_self .., rfl⟩
      · obtain ⟨value, before, same⟩ := ih there
        exact ⟨value, List.mem_cons_of_mem _ before, same⟩

/-- A plain value written under a key changes nothing else. -/
theorem putShared_of_plain {value : Value} (plain : Plain value) (key : Text) (fields : Fields) :
    putShared key value fields = Entries.put key value fields := by
  rw [putShared, occurrences_of_plain value plain, refreshFields_nil]

/-- What shares nothing is not changed by a value written under another key. -/
theorem get?_putShared_of_ne {key other : Text} (different : key ≠ other) (value : Value) {fields : Fields}
    (plain : PlainFields fields) : Entries.get? other (putShared key value fields) = Entries.get? other fields := by
  rw [putShared, get?_refreshFields, Entries.get?_put_of_ne different]
  cases found : Entries.get? other fields with
  | none => rfl
  | some held => rw [Option.map_some, refresh_of_plain _ _ (plain.of_get? found)]

/-! ### Objects kept in step -/

structure Renews (onValue : Value → Value) (onFields : Fields → Fields) : Prop where
  found : ∀ key fields, Entries.get? key (onFields fields) = (Entries.get? key fields).map onValue
  keys : ∀ fields, Entries.keys (onFields fields) = Entries.keys fields
  record : ∀ fields, onValue (.record fields) = .record (onFields fields)
  leaf : ∀ value, value.isObject = false → onValue value = value
  object : ∀ value, value.isObject = true → (onValue value).isObject = true

theorem renews_shift (amount : Nat) : Renews (shift amount) (shiftFields amount) where
  found := get?_shiftFields amount
  keys := keys_shiftFields amount
  record fields := by rw [Value.record, shift, Option.map_none, Value.record]
  leaf value simple := by
    cases value with
    | object mark fields => cases simple
    | null | bool _ | int _ | float _ | text _ | array _ => simp only [shift]
  object value shape := by
    cases value with
    | object mark fields => rw [shift, isObject]
    | null | bool _ | int _ | float _ | text _ | array _ => cases shape

mutual
theorem isObject_of_mem_occurrences : (value : Value) → ∀ known ∈ occurrences value,
    known.2.isObject = true
  | .object (some mark) fields => by
      rw [occurrences, List.forall_mem_cons]
      exact ⟨rfl, isObject_of_mem_occurrencesFields fields⟩
  | .object none fields => by
      rw [occurrences]
      exact isObject_of_mem_occurrencesFields fields
  | .null | .bool _ | .int _ | .float _ | .text _ | .array _ => by simp [occurrences]
theorem isObject_of_mem_occurrencesFields : (fields : List (Text × Value)) →
    ∀ known ∈ occurrencesFields fields, known.2.isObject = true
  | [] => by simp [occurrencesFields]
  | (key, value) :: rest => by
      rw [occurrencesFields, List.forall_mem_append]
      exact ⟨isObject_of_mem_occurrences value, isObject_of_mem_occurrencesFields rest⟩
end

theorem mem_of_current? {known : Occurrences} {mark : Option Nat} {value : Value}
    (found : current? known mark = some value) : ∃ place ∈ mark, (place, value) ∈ known := by
  cases mark with
  | none => cases found
  | some place =>
      obtain ⟨⟨other, _⟩, first, rfl⟩ := Option.map_eq_some_iff.mp found
      obtain rfl : other = place := by simpa using List.find?_some first
      exact ⟨other, rfl, List.mem_of_find?_eq_some first⟩

theorem renews_refresh {known : Occurrences} (objects : ∀ entry ∈ known, entry.2.isObject = true) :
    Renews (refresh known) (refreshFields known) where
  found := get?_refreshFields known
  keys := keys_refreshFields known
  record fields := by rw [Value.record, refresh, current?, Value.record]
  leaf value simple := by
    cases value with
    | object mark fields => cases simple
    | null | bool _ | int _ | float _ | text _ | array _ => simp only [refresh]
  object value shape := by
    cases value with
    | object mark fields =>
        rw [refresh]
        cases found : current? known mark with
        | none => rfl
        | some present =>
            obtain ⟨place, _, member⟩ := mem_of_current? found
            exact objects _ member
    | null | bool _ | int _ | float _ | text _ | array _ => cases shape

namespace Renews

variable {onValue : Value → Value} {onFields : Fields → Fields}

theorem eq_leaf (renews : Renews onValue onFields) {value simple : Value}
    (shape : simple.isObject = false) (same : onValue value = simple) : value = simple := by
  cases object : value.isObject with
  | false => rw [← same, renews.leaf value object]
  | true =>
      have impossible := renews.object value object
      rw [same, shape] at impossible
      cases impossible

theorem distinct (renews : Renews onValue onFields) {fields : Fields}
    (distinct : Entries.Distinct fields) : Entries.Distinct (onFields fields) := by
  unfold Entries.Distinct
  rw [renews.keys]
  exact distinct

end Renews

/-! ### Merging -/

@[simp]
theorem merge_object (own mark : Option Nat) (fields source : Fields) :
    merge (.object own fields) (.object mark source) = .object own (mergeFields fields source) := by
  rw [merge]

theorem merge_apart {dest source : Value}
    (apart : dest.isObject = false ∨ source.isObject = false) : merge dest source = source := by
  cases source with
  | object mark fields =>
      cases dest with
      | object own before => cases apart with
        | inl impossible | inr impossible => cases impossible
      | null | bool _ | int _ | float _ | text _ | array _ => rw [merge]; simp
  | null | bool _ | int _ | float _ | text _ | array _ => rw [merge]; simp

theorem isObject_merge (dest : Value) {source : Value} (shape : source.isObject = true) :
    (merge dest source).isObject = true := by
  cases source with
  | object mark fields =>
      cases dest with
      | object own before => rw [merge_object]; rfl
      | null | bool _ | int _ | float _ | text _ | array _ => rw [merge_apart (Or.inl rfl)]; rfl
  | null | bool _ | int _ | float _ | text _ | array _ => cases shape

mutual
theorem Plain.merge : (dest source : Value) → Plain dest → Plain source →
    Plain (dest.merge source)
  | .object own fields, .object mark source, plainDest, plainSource => by
      obtain ⟨unmarked, inside⟩ := plain_object.mp plainDest
      rw [merge_object]
      exact plain_object.mpr ⟨unmarked,
        PlainFields.merge fields source inside (plain_object.mp plainSource).2⟩
  | .null, .object mark source, _, plain | .bool _, .object mark source, _, plain
  | .int _, .object mark source, _, plain | .float _, .object mark source, _, plain
  | .text _, .object mark source, _, plain | .array _, .object mark source, _, plain => by
      rw [Value.merge]
      · exact plain
      · intro own fields same
        cases same
  | dest, .null, _, plain | dest, .bool _, _, plain | dest, .int _, _, plain
  | dest, .float _, _, plain | dest, .text _, _, plain | dest, .array _, _, plain => by
      rw [Value.merge]
      · exact plain
      · intro mark fields same
        cases same
theorem PlainFields.merge : (dest source : List (Text × Value)) → PlainFields dest →
    PlainFields source → PlainFields (mergeFields dest source)
  | dest, [], plainDest, _ => by
      rw [mergeFields]
      exact plainDest
  | dest, (key, value) :: rest, plainDest, plainSource => by
      have split := plainFields_cons.mp plainSource
      rw [mergeFields]
      refine PlainFields.merge _ rest (plainDest.put ?_ key) split.2
      cases found : Entries.get? key dest with
      | none => exact split.1
      | some old => exact Plain.merge old value (plainDest.of_get? found) split.1
end

/-- Merging leaves alone what the source does not mention. -/
theorem distinct_mergeFields {dest : Fields} (source : List (Text × Value))
    (distinct : Entries.Distinct dest) : Entries.Distinct (mergeFields dest source) := by
  induction source generalizing dest with
  | nil =>
      rw [mergeFields]
      exact distinct
  | cons head rest ih =>
      rw [mergeFields]
      exact ih (distinct.put _ _)

theorem get?_mergeFields_of_absent {key : Text} {source : Fields}
    (absent : Entries.get? key source = none) (dest : Fields) :
    Entries.get? key (mergeFields dest source) = Entries.get? key dest := by
  induction source generalizing dest with
  | nil => rw [mergeFields]
  | cons head rest ih =>
      obtain ⟨other, value⟩ := head
      rw [Entries.get?_cons] at absent
      by_cases same : other = key
      · rw [if_pos same] at absent
        cases absent
      · rw [if_neg same] at absent
        rw [mergeFields, ih absent, Entries.get?_put, if_neg (Ne.symm same)]

/-- Field by field, the source wins, and where both sides say something they are merged. -/
theorem get?_mergeFields (key : Text) (dest : Fields) {source : Fields}
    (distinct : Entries.Distinct source) :
    Entries.get? key (mergeFields dest source) =
      match Entries.get? key source, Entries.get? key dest with
      | none, old => old
      | some value, none => some value
      | some value, some old => some (merge old value) := by
  induction source generalizing dest with
  | nil => rw [mergeFields, Entries.get?_nil]
  | cons head rest ih =>
      obtain ⟨other, value⟩ := head
      have split := List.nodup_cons.mp distinct
      rw [mergeFields, Entries.get?_cons]
      by_cases same : other = key
      · rw [if_pos same]
        subst same
        rw [get?_mergeFields_of_absent (Entries.get?_eq_none_iff.mpr split.1),
          Entries.get?_put_self]
        cases Entries.get? other dest <;> rfl
      · rw [if_neg same, ih _ split.2, Entries.get?_put, if_neg (Ne.symm same)]

/-- An overlay writes what is merged under its key and keeps everything else in step, what is still to
come included. -/
theorem overlayOne_renews (key : Text) (value : Value) (fields later : Fields) :
    ∃ onValue onFields, Renews onValue onFields ∧
      (overlayOne key value fields later).2 = onFields later ∧
      ∀ name, Entries.get? name (overlayOne key value fields later).1 =
        (if name = key then some (match Entries.get? key fields with
          | some old => merge old value
          | none => value) else Entries.get? name fields).map onValue := by
  by_cases objects : ∃ mark base own source,
      Entries.get? key fields = some (.object mark base) ∧ value = .object own source
  · obtain ⟨mark, base, own, source, found, rfl⟩ := objects
    refine ⟨_, _, renews_refresh (isObject_of_mem_occurrences
      (merge (.object mark base) (.object own source))), ?_, fun name => ?_⟩
    · simp only [overlayOne, found]
    · simp only [overlayOne, found]
      rw [putShared, get?_refreshFields, Entries.get?_put]
  · have written : overlayOne key value fields later = (Entries.put key value fields, later) := by
      unfold overlayOne
      split
      · rename_i found
        exact absurd ⟨_, _, _, _, found, rfl⟩ objects
      · rfl
    have identity : Renews id id :=
      ⟨fun _ _ => Option.map_id.symm ▸ rfl, fun _ => rfl, fun _ => rfl, fun _ _ => rfl, fun _ shape => shape⟩
    refine ⟨id, id, identity, congrArg Prod.snd written, fun name => ?_⟩
    rw [written, Option.map_id, id, Entries.get?_put]
    cases found : Entries.get? key fields with
    | none => rfl
    | some old =>
        have apart : old.isObject = false ∨ value.isObject = false := by
          by_contra both
          rw [not_or, Bool.not_eq_false, Bool.not_eq_false] at both
          cases old with
          | object mark base =>
              cases value with
              | object own source => exact objects ⟨_, _, _, _, found, rfl⟩
              | null | bool _ | int _ | float _ | text _ | array _ => cases both.2
          | null | bool _ | int _ | float _ | text _ | array _ => cases both.1
        dsimp only
        rw [merge_apart apart]

theorem get?_mergeFields_eq_none {key : Text} {dest source : Fields} :
    Entries.get? key (mergeFields dest source) = none ↔
      Entries.get? key dest = none ∧ Entries.get? key source = none := by
  induction source generalizing dest with
  | nil =>
      rw [mergeFields]
      exact (and_iff_left rfl).symm
  | cons head rest ih =>
      rw [mergeFields, ih, Entries.get?_put, Entries.get?_cons]
      by_cases same : head.1 = key
      · rw [if_pos same.symm, if_pos same]
        constructor
        · rintro ⟨impossible, _⟩
          cases impossible
        · rintro ⟨_, impossible⟩
          cases impossible
      · rw [if_neg (Ne.symm same), if_neg same]

theorem has_merge_record (key : Text) (dest : Value) (source : Fields) :
    Entries.has key (merge dest (.record source)).inner = true ↔
      Entries.has key dest.inner = true ∨ Entries.has key source = true := by
  cases dest with
  | object mark fields =>
      rw [record, merge_object, inner, inner]
      have absent : ¬ Entries.get? key (mergeFields fields source) = none ↔ _ := not_congr get?_mergeFields_eq_none
      rw [not_and_or] at absent
      simpa only [Entries.has, Option.isSome_iff_ne_none] using absent
  | null | bool _ | int _ | float _ | text _ | array _ =>
      rw [merge_apart (Or.inl rfl)]
      exact (or_iff_right Bool.false_ne_true).symm

/-- A field may as well be taken out on both sides before a merge. -/
theorem erase_mergeFields (key : Text) (dest source : Fields) :
    Entries.erase key (mergeFields dest source) =
      mergeFields (Entries.erase key dest) (Entries.erase key source) := by
  induction source generalizing dest with
  | nil => rw [mergeFields, Entries.erase, Entries.erase, List.filter_nil, mergeFields]
  | cons head rest ih =>
      obtain ⟨own, value⟩ := head
      rw [mergeFields, ih, Entries.erase_cons]
      by_cases same : own = key
      · subst same
        rw [if_pos rfl, Entries.erase_put_self]
      · rw [if_neg same, mergeFields, Entries.erase_put_of_ne same, Entries.get?_erase, if_neg same]

structure Unshared (attributes : Fields) : Prop where
  plain : PlainFields attributes
  distinct : Entries.Distinct attributes

/-! ### Keys that neither side of a merge has -/

theorem absent_putShared {key other : Text} {value : Value} {fields : Fields}
    (absent : Entries.get? key fields = none) (different : other ≠ key) :
    Entries.get? key (putShared other value fields) = none := by
  rw [putShared, get?_refreshFields, Entries.get?_put, if_neg (Ne.symm different), absent,
    Option.map_none]

theorem absent_overlayOne {key other : Text} {value : Value} {fields later : Fields}
    (absent : Entries.get? key fields = none) (gone : Entries.get? key later = none)
    (different : other ≠ key) :
    Entries.get? key (overlayOne other value fields later).1 = none ∧
      Entries.get? key (overlayOne other value fields later).2 = none := by
  unfold overlayOne
  split
  · refine ⟨absent_putShared absent different, ?_⟩
    rw [get?_refreshFields, gone, Option.map_none]
  · refine ⟨?_, gone⟩
    rw [Entries.get?_put, if_neg (Ne.symm different), absent]

theorem absent_overlay {key : Text} {fields source : Fields}
    (absent : Entries.get? key fields = none) (gone : Entries.get? key source = none) :
    Entries.get? key (overlay fields source) = none := by
  induction fields, source using overlay.induct with
  | case1 fields =>
      rw [overlay]
      exact absent
  | case2 fields other value later ih =>
      rw [Entries.get?_cons] at gone
      by_cases same : other = key
      · rw [if_pos same] at gone
        cases gone
      · rw [if_neg same] at gone
        rw [overlay]
        exact ih (absent_overlayOne absent gone same).1 (absent_overlayOne absent gone same).2

end EventSchema.Value
