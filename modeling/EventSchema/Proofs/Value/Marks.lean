import EventSchema.Proofs.Value.Plain

/-!
The marks in a value.

The marks tell which objects a value has in common with other places. Merging brings no new ones in, and
keeping shared objects in step replaces an object only by one of the same mark, so it does nothing to a value
with other marks.
-/

set_option autoImplicit false

namespace EventSchema.Value

variable {s t : Nat → Prop}

/-! ### The marks of a value -/

def Marked (s : Nat → Prop) (value : Value) : Prop := ∀ known ∈ occurrences value, s known.1

def MarkedFields (s : Nat → Prop) (fields : Fields) : Prop := ∀ known ∈ occurrencesFields fields, s known.1

theorem marked_of_leaf {value : Value} (leaf : value.isObject = false) : Marked s value := by
  cases value with
  | object mark fields => cases leaf
  | null | bool _ | int _ | float _ | text _ | array _ => simp [Marked, occurrences]

theorem marked_object {mark : Option Nat} {fields : Fields} :
    Marked s (.object mark fields) ↔ (∀ m ∈ mark, s m) ∧ MarkedFields s fields := by
  cases mark with
  | none => simp [Marked, MarkedFields, occurrences]
  | some m => simp [Marked, MarkedFields, occurrences]

theorem marked_record {fields : Fields} : Marked s (.record fields) ↔ MarkedFields s fields := by
  rw [record, marked_object]
  exact and_iff_right fun _ impossible => by cases impossible

theorem markedFields_nil : MarkedFields s [] := by simp [MarkedFields, occurrencesFields]

theorem markedFields_cons {entry : Text × Value} {rest : Fields} :
    MarkedFields s (entry :: rest) ↔ Marked s entry.2 ∧ MarkedFields s rest := by
  unfold MarkedFields Marked
  rw [occurrencesFields, List.forall_mem_append]

theorem forall_mem_occurrencesFields {property : Nat × Value → Prop} {fields : Fields} :
    (∀ known ∈ occurrencesFields fields, property known) ↔
      ∀ entry ∈ fields, ∀ known ∈ occurrences entry.2, property known := by
  induction fields with
  | nil => simp [occurrencesFields]
  | cons head rest ih => rw [occurrencesFields, List.forall_mem_append, List.forall_mem_cons, ih]

theorem markedFields_iff {fields : Fields} : MarkedFields s fields ↔ ∀ entry ∈ fields, Marked s entry.2 :=
  forall_mem_occurrencesFields

theorem Marked.mono {value : Value} (marked : Marked s value) (implied : ∀ m, s m → t m) : Marked t value :=
  fun known member => implied _ (marked known member)

theorem Plain.marked {value : Value} (plain : Plain value) : Marked s value := by
  rw [Marked, occurrences_of_plain value plain]
  exact List.forall_mem_nil _

mutual
theorem Marked.plain : (value : Value) → Marked (fun _ => False) value → Plain value
  | .object mark fields, marked => by
      obtain ⟨own, inside⟩ := marked_object.mp marked
      refine plain_object.mpr ⟨?_, MarkedFields.plain fields inside⟩
      cases mark with
      | none => rfl
      | some m => exact absurd rfl (own m)
  | .null, _ | .bool _, _ | .int _, _ | .float _, _ | .text _, _ | .array _, _ => unshared_of_leaf rfl
theorem MarkedFields.plain : (fields : List (Text × Value)) → MarkedFields (fun _ => False) fields →
    PlainFields fields
  | [], _ => plainFields_nil
  | (key, value) :: rest, marked => by
      have split := markedFields_cons.mp marked
      exact plainFields_cons.mpr ⟨Marked.plain value split.1, MarkedFields.plain rest split.2⟩
end

namespace MarkedFields

variable {fields : Fields}

theorem of_get? (marked : MarkedFields s fields) {key : Text} {value : Value}
    (found : Entries.get? key fields = some value) : Marked s value :=
  markedFields_iff.mp marked _ (Entries.mem_of_get? found)

theorem put (marked : MarkedFields s fields) {value : Value} (given : Marked s value) (key : Text) :
    MarkedFields s (Entries.put key value fields) :=
  markedFields_iff.mpr fun entry member => by
    rcases Entries.mem_of_mem_put member with rfl | before
    · exact given
    · exact markedFields_iff.mp marked entry before

theorem putNew (marked : MarkedFields s fields) {value : Value} (given : Marked s value) (key : Text) :
    MarkedFields s (Entries.putNew key value fields) := by
  unfold Entries.putNew
  split
  · exact marked
  · exact marked.put given key

theorem orEmpty (marked : MarkedFields s fields) (key : Text) : Marked s (Entries.orEmpty key fields) := by
  rw [Entries.orEmpty, Entries.getOr]
  cases found : Entries.get? key fields with
  | none => exact marked_record.mpr markedFields_nil
  | some value => exact marked.of_get? found

theorem attributes (marked : MarkedFields s fields) : MarkedFields s (Entries.attributes fields) := by
  have held := marked.orEmpty "attributes"
  rw [Entries.attributes_eq_inner]
  cases shape : Entries.orEmpty "attributes" fields with
  | object mark inner =>
      rw [shape] at held
      exact (marked_object.mp held).2
  | null | bool _ | int _ | float _ | text _ | array _ => exact markedFields_nil

end MarkedFields

mutual
theorem Marked.inside : (value : Value) → Marked s value → ∀ known ∈ occurrences value, Marked s known.2
  | .object none fields, marked => by
      rw [occurrences]
      exact MarkedFields.inside fields (marked_object.mp marked).2
  | .object (some m) fields, marked => by
      rw [occurrences, List.forall_mem_cons]
      exact ⟨marked, MarkedFields.inside fields (marked_object.mp marked).2⟩
  | .null, _ | .bool _, _ | .int _, _ | .float _, _ | .text _, _ | .array _, _ => by simp [occurrences]
theorem MarkedFields.inside : (fields : List (Text × Value)) → MarkedFields s fields →
    ∀ known ∈ occurrencesFields fields, Marked s known.2
  | [], _ => by simp [occurrencesFields]
  | (key, value) :: rest, marked => by
      have split := markedFields_cons.mp marked
      rw [occurrencesFields, List.forall_mem_append]
      exact ⟨Marked.inside value split.1, MarkedFields.inside rest split.2⟩
end

mutual
theorem marked_bound : (value : Value) → Marked (· < bound value) value
  | .object none fields => by
      rw [marked_object, bound]
      exact ⟨(fun _ impossible => by cases impossible), markedFields_bound fields⟩
  | .object (some m) fields => by
      rw [marked_object, bound]
      refine ⟨fun _ own => ?_, fun known member => Nat.lt_of_lt_of_le (markedFields_bound fields known member)
        (Nat.le_max_right ..)⟩
      cases own
      exact Nat.lt_of_lt_of_le (Nat.lt_succ_self m) (Nat.le_max_left ..)
  | .null | .bool _ | .int _ | .float _ | .text _ | .array _ => marked_of_leaf rfl
theorem markedFields_bound : (fields : List (Text × Value)) → MarkedFields (· < boundFields fields) fields
  | [] => markedFields_nil
  | (key, value) :: rest => by
      rw [markedFields_cons, boundFields]
      exact ⟨fun known member => Nat.lt_of_lt_of_le (marked_bound value known member) (Nat.le_max_left ..),
        fun known member => Nat.lt_of_lt_of_le (markedFields_bound rest known member) (Nat.le_max_right ..)⟩
end

mutual
theorem Marked.shift (amount : Nat) : (value : Value) → Marked s value →
    Marked (fun m => ∃ k, s k ∧ m = k + amount) (value.shift amount)
  | .object mark fields, marked => by
      obtain ⟨own, inside⟩ := marked_object.mp marked
      rw [Value.shift]
      refine marked_object.mpr ⟨fun _ moved => ?_, MarkedFields.shift amount fields inside⟩
      obtain ⟨k, held, rfl⟩ := Option.map_eq_some_iff.mp moved
      exact ⟨k, own k held, rfl⟩
  | .null, _ | .bool _, _ | .int _, _ | .float _, _ | .text _, _ | .array _, _ => by
      simp only [Value.shift]
      exact marked_of_leaf rfl
theorem MarkedFields.shift (amount : Nat) : (fields : List (Text × Value)) → MarkedFields s fields →
    MarkedFields (fun m => ∃ k, s k ∧ m = k + amount) (shiftFields amount fields)
  | [], _ => by
      rw [shiftFields]
      exact markedFields_nil
  | (key, value) :: rest, marked => by
      have split := markedFields_cons.mp marked
      rw [shiftFields]
      exact markedFields_cons.mpr ⟨Marked.shift amount value split.1, MarkedFields.shift amount rest split.2⟩
end

mutual
theorem Marked.merge : (dest source : Value) → Marked s dest → Marked s source → Marked s (dest.merge source)
  | .object own fields, .object mark source, into, given => by
      obtain ⟨kept, inside⟩ := marked_object.mp into
      rw [merge_object]
      exact marked_object.mpr ⟨kept, MarkedFields.merge fields source inside (marked_object.mp given).2⟩
  | .null, .object _ _, _, given | .bool _, .object _ _, _, given | .int _, .object _ _, _, given
  | .float _, .object _ _, _, given | .text _, .object _ _, _, given | .array _, .object _ _, _, given => by
      rw [merge_apart (Or.inl rfl)]
      exact given
  | _, .null, _, given | _, .bool _, _, given | _, .int _, _, given | _, .float _, _, given
  | _, .text _, _, given | _, .array _, _, given => by
      rw [merge_apart (Or.inr rfl)]
      exact given
theorem MarkedFields.merge : (dest source : List (Text × Value)) → MarkedFields s dest →
    MarkedFields s source → MarkedFields s (mergeFields dest source)
  | dest, [], into, _ => by
      rw [mergeFields]
      exact into
  | dest, (key, value) :: rest, into, given => by
      have split := markedFields_cons.mp given
      rw [mergeFields]
      refine MarkedFields.merge _ rest (into.put ?_ key) split.2
      cases found : Entries.get? key dest with
      | none => exact split.1
      | some old => exact Marked.merge old value (into.of_get? found) split.1
end

/-! ### Keeping marked values in step -/

theorem current?_apart {known : Occurrences} (apart : ∀ entry ∈ known, ¬s entry.1) {mark : Option Nat}
    (own : ∀ m ∈ mark, s m) : current? known mark = none := by
  cases mark with
  | none => rfl
  | some m =>
      rw [current?, Option.map_eq_none_iff, List.find?_eq_none]
      intro entry member same
      exact apart entry member (eq_of_beq same ▸ own m rfl)

mutual
/-- Nothing happens to a value when objects of other marks change. -/
theorem Marked.refresh_apart {known : Occurrences} (apart : ∀ entry ∈ known, ¬s entry.1) :
    (value : Value) → Marked s value → refresh known value = value
  | .object mark fields, marked => by
      obtain ⟨own, inside⟩ := marked_object.mp marked
      rw [refresh, current?_apart apart own]
      dsimp only
      rw [MarkedFields.refresh_apart apart fields inside]
  | .null, _ | .bool _, _ | .int _, _ | .float _, _ | .text _, _ | .array _, _ => by simp only [refresh]
theorem MarkedFields.refresh_apart {known : Occurrences} (apart : ∀ entry ∈ known, ¬s entry.1) :
    (fields : List (Text × Value)) → MarkedFields s fields → refreshFields known fields = fields
  | [], _ => by rw [refreshFields]
  | (key, value) :: rest, marked => by
      have split := markedFields_cons.mp marked
      rw [refreshFields, Marked.refresh_apart apart value split.1, MarkedFields.refresh_apart apart rest split.2]
end

mutual
theorem Marked.refresh {known : Occurrences} (each : ∀ entry ∈ known, s entry.1 → Marked s entry.2) :
    (value : Value) → Marked s value → Marked s (value.refresh known)
  | .object mark fields, marked => by
      obtain ⟨own, inside⟩ := marked_object.mp marked
      rw [Value.refresh]
      cases found : current? known mark with
      | none => exact marked_object.mpr ⟨own, MarkedFields.refresh each fields inside⟩
      | some present =>
          obtain ⟨place, marks, member⟩ := mem_of_current? found
          exact each _ member (own place marks)
  | .null, _ | .bool _, _ | .int _, _ | .float _, _ | .text _, _ | .array _, _ => by
      simp only [Value.refresh]
      exact marked_of_leaf rfl
theorem MarkedFields.refresh {known : Occurrences} (each : ∀ entry ∈ known, s entry.1 → Marked s entry.2) :
    (fields : List (Text × Value)) → MarkedFields s fields → MarkedFields s (refreshFields known fields)
  | [], _ => by
      rw [refreshFields]
      exact markedFields_nil
  | (key, value) :: rest, marked => by
      have split := markedFields_cons.mp marked
      rw [refreshFields]
      exact markedFields_cons.mpr ⟨Marked.refresh each value split.1, MarkedFields.refresh each rest split.2⟩
end

end EventSchema.Value
