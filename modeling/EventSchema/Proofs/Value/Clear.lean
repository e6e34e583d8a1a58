import EventSchema.Proofs.Scope
import EventSchema.Proofs.Value.Plain

/-!
Values that refer to nothing in a scope.

An item or an attribute refers to others by a few of its fields, and its field `extension` says in
which scope a plain name is looked up first. A value is clear of a scope if no such field, at any
depth, leads into the scope. Merging clear values, and keeping their shared objects in step, gives
clear values.
-/

set_option autoImplicit false

namespace EventSchema.Value

def referringKeys : List Text := ["extends", "category", "type", "object_type", "_source"]

/-- A field that does not lead into the scope. An object is not taken as a name, and none reads as
the scope, since no scope begins with a brace. -/
def ClearField (scope : Text) (field : Text × Value) : Prop :=
  field.2.isObject = false →
    (field.1 ∈ referringKeys → Scope.NameOutside scope field.2) ∧
    (field.1 = "extension" → Scope.OwnerOutside scope field.2)

mutual
def Clear (scope : Text) : Value → Prop
  | object _ fields => ClearFields scope fields
  | _ => True
def ClearFields (scope : Text) : List (Text × Value) → Prop
  | [] => True
  | (key, value) :: rest => ClearField scope (key, value) ∧ Clear scope value ∧ ClearFields scope rest
end

instance (scope : Text) : DecidablePred (ClearField scope) :=
  fun field => inferInstanceAs (Decidable (field.2.isObject = false → _))

mutual
def decClear (scope : Text) : (value : Value) → Decidable (Clear scope value)
  | .object _ fields =>
    have := decClearFields scope fields
    decidable_of_iff (ClearFields scope fields) (by rw [Clear])
  | .null | .bool _ | .int _ | .float _ | .text _ | .array _ => isTrue (by simp only [Clear])
def decClearFields (scope : Text) : (fields : List (Text × Value)) → Decidable (ClearFields scope fields)
  | [] => isTrue trivial
  | (key, value) :: rest =>
    have := decClear scope value
    have := decClearFields scope rest
    decidable_of_iff (ClearField scope (key, value) ∧ Clear scope value ∧ ClearFields scope rest)
      (by rw [ClearFields])
end

instance (scope : Text) : DecidablePred (ClearFields scope) := decClearFields scope

variable {scope : Text}

theorem clearField_of_object {key : Text} {value : Value} (shape : value.isObject = true) :
    ClearField scope (key, value) := by
  intro other
  rw [shape] at other
  cases other

theorem clearField_of_key {key : Text} (silent : key ∉ ("extension" : Text) :: referringKeys)
    (value : Value) : ClearField scope (key, value) := by
  intro _
  constructor
  · exact fun member => absurd (List.mem_cons_of_mem _ member) silent
  · exact fun same => absurd (same ▸ List.mem_cons_self ..) silent

theorem clearField_of_name {key : Text} {value : Value} (named : Scope.NameOutside scope value)
    (reference : key ≠ "extension") : ClearField scope (key, value) :=
  fun _ => ⟨fun _ => named, fun same => absurd same reference⟩

theorem clearField_text {text : Text} (free : Scope.owns scope text = false) {key : Text}
    (reference : key ≠ "extension") : ClearField scope (key, .text text) :=
  clearField_of_name (fun _ same => Value.text.inj same ▸ free) reference

theorem clear_of_not_object {value : Value} (shape : value.isObject = false) : Clear scope value := by
  cases value with
  | object mark fields => cases shape
  | null | bool _ | int _ | float _ | text _ | array _ => simp only [Clear]

theorem clear_object {mark : Option Nat} {fields : Fields} :
    Clear scope (.object mark fields) ↔ ClearFields scope fields := by rw [Clear]

theorem clear_record {fields : Fields} : Clear scope (.record fields) ↔ ClearFields scope fields :=
  clear_object

theorem clearFields_nil : ClearFields scope [] := by rw [ClearFields]; exact trivial

theorem clearFields_cons {entry : Text × Value} {rest : Fields} :
    ClearFields scope (entry :: rest) ↔
      ClearField scope entry ∧ Clear scope entry.2 ∧ ClearFields scope rest := by
  obtain ⟨key, value⟩ := entry
  rw [ClearFields]

theorem clearFields_iff {fields : Fields} :
    ClearFields scope fields ↔
      ∀ entry ∈ fields, ClearField scope entry ∧ Clear scope entry.2 := by
  induction fields with
  | nil => exact iff_of_true clearFields_nil (fun entry impossible => by cases impossible)
  | cons head rest ih => rw [clearFields_cons, ih, List.forall_mem_cons, and_assoc]

theorem ClearFields.of_get? {fields : Fields} (clear : ClearFields scope fields) {key : Text}
    {value : Value} (found : Entries.get? key fields = some value) :
    ClearField scope (key, value) ∧ Clear scope value :=
  clearFields_iff.mp clear _ (Entries.mem_of_get? found)

/-! ### What an item refers to -/

/-- None of the fields themselves leads into the scope; what lies deeper may be anything. -/
def ClearSurface (scope : Text) (fields : Fields) : Prop := ∀ field ∈ fields, ClearField scope field

theorem ClearFields.surface {fields : Fields} (clear : ClearFields scope fields) :
    ClearSurface scope fields := fun field member => (clearFields_iff.mp clear field member).1

theorem ClearSurface.put {fields : Fields} (clear : ClearSurface scope fields) {key : Text}
    {value : Value} (field : ClearField scope (key, value)) :
    ClearSurface scope (Entries.put key value fields) := by
  intro entry member
  rcases Entries.mem_of_mem_put member with written | before
  · exact written ▸ field
  · exact clear entry before

theorem ClearSurface.putNew {fields : Fields} (clear : ClearSurface scope fields) {key : Text}
    {value : Value} (field : ClearField scope (key, value)) :
    ClearSurface scope (Entries.putNew key value fields) := by
  unfold Entries.putNew
  split
  · exact clear
  · exact clear.put field

theorem ClearField.name {key : Text} {value : Value} (clear : ClearField scope (key, value))
    (reference : key ∈ referringKeys) : Scope.NameOutside scope value := by
  intro text same
  exact (clear (by rw [same]; rfl)).1 reference text same

theorem ClearSurface.name {fields : Fields} (clear : ClearSurface scope fields) {key : Text}
    (reference : key ∈ referringKeys) : Scope.NameOutside scope (Entries.orNull key fields) := by
  unfold Entries.orNull Entries.getOr
  cases found : Entries.get? key fields with
  | none => exact fun text impossible => by cases impossible
  | some value => exact (clear _ (Entries.mem_of_get? found)).name reference

theorem ownerOutside_object (proper : Scope.Proper scope) (mark : Option Nat) (fields : Fields) :
    Scope.OwnerOutside scope (.object mark fields) := by
  intro _
  rw [← Bool.not_eq_true, Scope.owns_iff]
  intro front
  have shape : ∃ rest, ((Value.object mark fields).shown ++ "/").codes = 0x7b :: rest :=
    ⟨_, by simp only [shown, spelled, bracketed, Text.codes_append, Text.single]; rfl⟩
  obtain ⟨rest, shape⟩ := shape
  rw [shape] at front
  have brace : ("\x7b" : Text).codes = [0x7b] := by decide
  cases name : scope.codes with
  | nil =>
      rw [name, List.nil_append, List.cons_prefix_cons] at front
      exact absurd front.1 (by decide)
  | cons first later =>
      rw [name, List.cons_append, List.cons_prefix_cons] at front
      have braced : scope.startsWith "\x7b" = true := by
        rw [Text.startsWith_iff, brace, name, front.1]
        exact List.cons_prefix_cons.mpr ⟨rfl, List.nil_prefix ..⟩
      rw [proper.unbraced] at braced
      cases braced

theorem ClearField.owner (proper : Scope.Proper scope) {value : Value}
    (clear : ClearField scope ("extension", value)) : Scope.OwnerOutside scope value := by
  cases shape : value.isObject with
  | false => exact (clear shape).2 rfl
  | true =>
      cases value with
      | object mark fields => exact ownerOutside_object proper mark fields
      | null | bool _ | int _ | float _ | text _ | array _ => cases shape

theorem ClearSurface.owner (proper : Scope.Proper scope) {fields : Fields}
    (clear : ClearSurface scope fields) {owner : Value}
    (found : Entries.get? "extension" fields = some owner) : Scope.OwnerOutside scope owner :=
  ClearField.owner proper (clear _ (Entries.mem_of_get? found))


theorem ClearFields.getOr_clear {fields : Fields} (clear : ClearFields scope fields) (key : Text)
    {default : Value} (other : Clear scope default) : Clear scope (Entries.getOr key fields default) := by
  unfold Entries.getOr
  cases found : Entries.get? key fields with
  | none => exact other
  | some value => exact (clear.of_get? found).2

theorem ClearFields.orEmpty_clear {fields : Fields} (clear : ClearFields scope fields) (key : Text) :
    Clear scope (Entries.orEmpty key fields) :=
  clear.getOr_clear key (clear_record.mpr clearFields_nil)

theorem ClearFields.attributes {item : Fields} (clear : ClearFields scope item) :
    ClearFields scope (Entries.attributes item) := by
  unfold Entries.attributes
  cases found : Entries.get? "attributes" item with
  | none => exact clearFields_nil
  | some value =>
      have inside := (clear.of_get? found).2
      cases value with
      | object mark fields => exact clear_object.mp inside
      | null | bool _ | int _ | float _ | text _ | array _ => exact clearFields_nil

theorem Clear.asFields {value : Value} (clear : Clear scope value) {fields : Fields}
    (opened : value.asFields = .ok fields) : ClearFields scope fields := by
  cases value with
  | object mark own => exact Except.ok.inj opened ▸ clear_object.mp clear
  | null | bool _ | int _ | float _ | text _ | array _ => cases opened

/-! ### Writing -/

theorem ClearFields.filter {fields : Fields} (clear : ClearFields scope fields)
    (keep : Text × Value → Bool) : ClearFields scope (fields.filter keep) :=
  clearFields_iff.mpr fun entry member =>
    clearFields_iff.mp clear entry (List.mem_of_mem_filter member)

theorem ClearFields.erase {fields : Fields} (clear : ClearFields scope fields) (key : Text) :
    ClearFields scope (Entries.erase key fields) := clear.filter _

theorem ClearFields.put {fields : Fields} (clear : ClearFields scope fields) {key : Text}
    {value : Value} (field : ClearField scope (key, value)) (inside : Clear scope value) :
    ClearFields scope (Entries.put key value fields) := by
  refine clearFields_iff.mpr fun entry member => ?_
  rcases Entries.mem_of_mem_put member with written | before
  · rw [written]
    exact ⟨field, inside⟩
  · exact clearFields_iff.mp clear entry before

theorem ClearFields.putNew {fields : Fields} (clear : ClearFields scope fields) {key : Text}
    {value : Value} (field : ClearField scope (key, value)) (inside : Clear scope value) :
    ClearFields scope (Entries.putNew key value fields) := by
  unfold Entries.putNew
  split
  · exact clear
  · exact clear.put field inside

theorem ClearFields.put_record {fields inner : Fields} (clear : ClearFields scope fields)
    (key : Text) (inside : ClearFields scope inner) :
    ClearFields scope (Entries.put key (.record inner) fields) :=
  clear.put (clearField_of_object rfl) (clear_record.mpr inside)

theorem ClearFields.mapValues {fields : Fields} (clear : ClearFields scope fields)
    {change : Value → Value} (plain : ∀ value, value.isObject = false → change value = value)
    (inside : ∀ mark inner, ClearFields scope inner → (change (.object mark inner)).isObject = true ∧
      Clear scope (change (.object mark inner))) :
    ClearFields scope (Entries.mapValues change fields) := by
  refine clearFields_iff.mpr fun entry member => ?_
  obtain ⟨before, known, rfl⟩ := List.mem_map.mp member
  obtain ⟨field, value⟩ := clearFields_iff.mp clear before known
  cases shape : before.2 with
  | object mark inner =>
      rw [shape, clear_object] at value
      obtain ⟨object, after⟩ := inside mark inner value
      exact ⟨clearField_of_object object, after⟩
  | null | bool _ | int _ | float _ | text _ | array _ =>
      rw [plain _ rfl]
      refine ⟨?_, clear_of_not_object rfl⟩
      rw [← shape]
      exact field

/-! ### Merging -/

theorem ClearField.merge {key : Text} {source : Value} (field : ClearField scope (key, source))
    (dest : Value) : ClearField scope (key, Value.merge dest source) := by
  cases source with
  | object mark fields => exact clearField_of_object (isObject_merge dest rfl)
  | null | bool _ | int _ | float _ | text _ | array _ =>
      rw [merge_apart (Or.inr rfl)]
      exact field

mutual
theorem Clear.merge : (dest source : Value) → Clear scope dest → Clear scope source →
    Clear scope (dest.merge source)
  | .object own fields, .object mark source, clearDest, clearSource => by
      rw [merge_object]
      exact clear_object.mpr
        (ClearFields.merge fields source (clear_object.mp clearDest) (clear_object.mp clearSource))
  | .null, .object mark source, _, clear | .bool _, .object mark source, _, clear
  | .int _, .object mark source, _, clear | .float _, .object mark source, _, clear
  | .text _, .object mark source, _, clear | .array _, .object mark source, _, clear => by
      rw [merge_apart (Or.inl rfl)]
      exact clear
  | dest, .null, _, clear | dest, .bool _, _, clear | dest, .int _, _, clear
  | dest, .float _, _, clear | dest, .text _, _, clear | dest, .array _, _, clear => by
      rw [merge_apart (Or.inr rfl)]
      exact clear
theorem ClearFields.merge : (dest source : List (Text × Value)) → ClearFields scope dest →
    ClearFields scope source → ClearFields scope (mergeFields dest source)
  | dest, [], clearDest, _ => by
      rw [mergeFields]
      exact clearDest
  | dest, (key, value) :: rest, clearDest, clearSource => by
      obtain ⟨field, inside, later⟩ := clearFields_cons.mp clearSource
      rw [mergeFields]
      cases found : Entries.get? key dest with
      | none => exact ClearFields.merge _ rest (clearDest.put field inside) later
      | some old =>
          exact ClearFields.merge _ rest (clearDest.put (field.merge old)
            (Clear.merge old value (clearDest.of_get? found).2 inside)) later
end

/-! ### Shared objects -/

def ClearObjects (scope : Text) (known : Occurrences) : Prop :=
  ∀ occurrence ∈ known, occurrence.2.isObject = true ∧ Clear scope occurrence.2

mutual
theorem Clear.occurrences : (value : Value) → Clear scope value →
    ClearObjects scope (occurrences value)
  | .object (some mark) fields, clear => by
      rw [Value.occurrences]
      have inside := ClearFields.occurrences fields (clear_object.mp clear)
      exact List.forall_mem_cons.mpr ⟨⟨rfl, clear⟩, inside⟩
  | .object none fields, clear => by
      rw [Value.occurrences]
      exact ClearFields.occurrences fields (clear_object.mp clear)
  | .null, _ | .bool _, _ | .int _, _ | .float _, _ | .text _, _ | .array _, _ => by
      simp [Value.occurrences, ClearObjects]
theorem ClearFields.occurrences : (fields : List (Text × Value)) → ClearFields scope fields →
    ClearObjects scope (occurrencesFields fields)
  | [], _ => by simp [occurrencesFields, ClearObjects]
  | (key, value) :: rest, clear => by
      obtain ⟨_, inside, later⟩ := clearFields_cons.mp clear
      rw [occurrencesFields]
      exact List.forall_mem_append.mpr
        ⟨Clear.occurrences value inside, ClearFields.occurrences rest later⟩
end

theorem ClearObjects.current {known : Occurrences} (clear : ClearObjects scope known)
    {mark : Option Nat} {value : Value} (found : current? known mark = some value) :
    value.isObject = true ∧ Clear scope value := by
  cases mark with
  | none => cases found
  | some mark =>
      obtain ⟨occurrence, first, same⟩ := Option.map_eq_some_iff.mp found
      exact same ▸ clear occurrence (List.mem_of_find?_eq_some first)

mutual
theorem Clear.refresh {known : Occurrences} (clearKnown : ClearObjects scope known) :
    (value : Value) → Clear scope value → Clear scope (value.refresh known) ∧
      (value.refresh known).isObject = value.isObject
  | .object mark fields, clear => by
      rw [Value.refresh]
      cases found : current? known mark with
      | none =>
          exact ⟨clear_object.mpr (ClearFields.refresh clearKnown fields (clear_object.mp clear)), rfl⟩
      | some current =>
          obtain ⟨object, inside⟩ := clearKnown.current found
          exact ⟨inside, object⟩
  | .null, clear | .bool _, clear | .int _, clear | .float _, clear | .text _, clear
  | .array _, clear => by
      rw [Value.refresh]
      · exact ⟨clear, rfl⟩
      · simp
theorem ClearFields.refresh {known : Occurrences} (clearKnown : ClearObjects scope known) :
    (fields : List (Text × Value)) → ClearFields scope fields →
      ClearFields scope (refreshFields known fields)
  | [], clear => by
      rw [refreshFields]
      exact clear
  | (key, value) :: rest, clear => by
      obtain ⟨field, inside, later⟩ := clearFields_cons.mp clear
      have refreshed := Clear.refresh clearKnown value inside
      rw [refreshFields]
      refine clearFields_cons.mpr ⟨?_, refreshed.1, ClearFields.refresh clearKnown rest later⟩
      cases value with
      | object mark fields => exact clearField_of_object refreshed.2
      | null | bool _ | int _ | float _ | text _ | array _ =>
          rw [Value.refresh]
          · exact field
          · simp
end

theorem ClearFields.putShared {fields : Fields} (clear : ClearFields scope fields) {key : Text}
    {value : Value} (field : ClearField scope (key, value)) (inside : Clear scope value) :
    ClearFields scope (putShared key value fields) :=
  ClearFields.refresh (Clear.occurrences value inside) _ (clear.put field inside)

theorem ClearFields.overlayOne {fields later : Fields} {key : Text} {value : Value}
    (clear : ClearFields scope fields) (clearLater : ClearFields scope later)
    (field : ClearField scope (key, value)) (inside : Clear scope value) :
    ClearFields scope (overlayOne key value fields later).1 ∧
      ClearFields scope (overlayOne key value fields later).2 := by
  unfold Value.overlayOne
  split
  · rename_i mark base own source found
    have merged := Clear.merge (.object mark base) (.object own source) (clear.of_get? found).2 inside
    exact ⟨clear.putShared (clearField_of_object (isObject_merge _ rfl)) merged,
      ClearFields.refresh (Clear.occurrences _ merged) later clearLater⟩
  · exact ⟨clear.put field inside, clearLater⟩

theorem ClearFields.overlay {fields source : Fields} (clear : ClearFields scope fields)
    (clearSource : ClearFields scope source) : ClearFields scope (overlay fields source) := by
  induction fields, source using Value.overlay.induct with
  | case1 fields =>
      rw [Value.overlay]
      exact clear
  | case2 fields key value later ih =>
      obtain ⟨field, inside, rest⟩ := clearFields_cons.mp clearSource
      obtain ⟨first, second⟩ := ClearFields.overlayOne clear rest field inside
      rw [Value.overlay]
      exact ih first second

mutual
theorem Clear.shift (amount : Nat) : (value : Value) → Clear scope value →
    Clear scope (value.shift amount) ∧ (value.shift amount).isObject = value.isObject
  | .object mark fields, clear => by
      rw [Value.shift]
      exact ⟨clear_object.mpr (ClearFields.shift amount fields (clear_object.mp clear)), rfl⟩
  | .null, clear | .bool _, clear | .int _, clear | .float _, clear | .text _, clear
  | .array _, clear => by
      rw [Value.shift]
      · exact ⟨clear, rfl⟩
      · simp
theorem ClearFields.shift (amount : Nat) : (fields : List (Text × Value)) →
    ClearFields scope fields → ClearFields scope (shiftFields amount fields)
  | [], clear => by
      rw [shiftFields]
      exact clear
  | (key, value) :: rest, clear => by
      obtain ⟨field, inside, later⟩ := clearFields_cons.mp clear
      have shifted := Clear.shift amount value inside
      rw [shiftFields]
      refine clearFields_cons.mpr ⟨?_, shifted.1, ClearFields.shift amount rest later⟩
      cases value with
      | object mark fields => exact clearField_of_object shifted.2
      | null | bool _ | int _ | float _ | text _ | array _ =>
          rw [Value.shift]
          · exact field
          · simp
end

mutual
theorem Clear.unshared : (value : Value) → Clear scope value →
    Clear scope value.unshared ∧ value.unshared.isObject = value.isObject
  | .object mark fields, clear => by
      rw [Value.unshared]
      exact ⟨clear_object.mpr (ClearFields.unshared fields (clear_object.mp clear)), rfl⟩
  | .null, clear | .bool _, clear | .int _, clear | .float _, clear | .text _, clear
  | .array _, clear => by
      rw [Value.unshared]
      · exact ⟨clear, rfl⟩
      · simp
theorem ClearFields.unshared : (fields : List (Text × Value)) →
    ClearFields scope fields → ClearFields scope (unsharedFields fields)
  | [], clear => by
      rw [unsharedFields]
      exact clear
  | (key, value) :: rest, clear => by
      obtain ⟨field, inside, later⟩ := clearFields_cons.mp clear
      have copied := Clear.unshared value inside
      rw [unsharedFields]
      refine clearFields_cons.mpr ⟨?_, copied.1, ClearFields.unshared rest later⟩
      cases value with
      | object mark fields => exact clearField_of_object copied.2
      | null | bool _ | int _ | float _ | text _ | array _ =>
          rw [Value.unshared]
          · exact field
          · simp
end

theorem ClearField.unshared {key : Text} {value : Value} (field : ClearField scope (key, value)) :
    ClearField scope (key, value.unshared) := by
  cases value with
  | object mark fields =>
      rw [Value.unshared]
      exact clearField_of_object rfl
  | null | bool _ | int _ | float _ | text _ | array _ =>
      rw [Value.unshared]
      · exact field
      · simp

theorem ClearSurface.unshared {fields : Fields} (clear : ClearSurface scope fields) :
    ClearSurface scope (unsharedFields fields) := by
  induction fields with
  | nil =>
      rw [unsharedFields]
      exact clear
  | cons head rest ih =>
      have split := List.forall_mem_cons.mp clear
      rw [unsharedFields]
      exact List.forall_mem_cons.mpr ⟨split.1.unshared, ih split.2⟩

end EventSchema.Value
