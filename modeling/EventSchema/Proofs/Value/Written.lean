import EventSchema.Proofs.Value.Plain

/-!
Values as documents spell them.

A document spells no object twice in one place and no key twice in one object. Such values stay such
under merging, marks are neither found nor moved in them, and merging fields that could share objects
with others is then merging of plain fields.
-/

set_option autoImplicit false

namespace EventSchema.Value

mutual
/-- No object in the value is shared, and none has a key twice. What lies in lists is left out, since
it is never changed in place. -/
def Written : Value → Prop
  | object mark fields => mark = none ∧ Entries.Distinct fields ∧ WrittenFields fields
  | _ => True
def WrittenFields : List (Text × Value) → Prop
  | [] => True
  | (_, v) :: rest => Written v ∧ WrittenFields rest
end

mutual
def decWritten : (value : Value) → Decidable (Written value)
  | object mark fields =>
    have := decWrittenFields fields
    decidable_of_iff (mark = none ∧ (Entries.keys fields).Nodup ∧ WrittenFields fields) (by
      rw [Written, Entries.Distinct])
  | .null | .bool _ | .int _ | .float _ | .text _ | .array _ => isTrue (by simp only [Written])
def decWrittenFields : (fields : List (Text × Value)) → Decidable (WrittenFields fields)
  | [] => isTrue trivial
  | (_, value) :: rest =>
    have := decWritten value
    have := decWrittenFields rest
    decidable_of_iff (Written value ∧ WrittenFields rest) (by rw [WrittenFields])
end

instance : DecidablePred Written := decWritten

theorem writtenFields_iff {fields : Fields} :
    WrittenFields fields ↔ ∀ entry ∈ fields, Written entry.2 := by
  induction fields with
  | nil => simp [WrittenFields]
  | cons head rest ih => rw [WrittenFields, ih, List.forall_mem_cons]

theorem written_of_not_object {value : Value} (shape : value.isObject = false) : Written value := by
  cases value with
  | object mark fields => cases shape
  | null | bool _ | int _ | float _ | text _ | array _ => simp only [Written]

theorem written_object {mark : Option Nat} {fields : Fields} :
    Written (.object mark fields) ↔ mark = none ∧ Written (.record fields) := by
  unfold record
  rw [Written, Written, eq_self, true_and]

theorem written_record {fields : Fields} :
    Written (.record fields) ↔ Entries.Distinct fields ∧ ∀ entry ∈ fields, Written entry.2 := by
  rw [record, Written, writtenFields_iff, eq_self, true_and]

theorem written_cons {entry : Text × Value} {rest : Fields} :
    Written (.record (entry :: rest)) ↔
      Written entry.2 ∧ Written (.record rest) ∧ entry.1 ∉ Entries.keys rest := by
  rw [written_record, written_record, List.forall_mem_cons, Entries.Distinct, Entries.Distinct,
    Entries.keys, List.map_cons, List.nodup_cons]
  constructor
  · rintro ⟨⟨fresh, distinct⟩, own, others⟩
    exact ⟨own, ⟨distinct, others⟩, fresh⟩
  · rintro ⟨own, ⟨distinct, others⟩, fresh⟩
    exact ⟨⟨fresh, distinct⟩, own, others⟩

theorem written_nil : Written (.record []) :=
  written_record.mpr ⟨Entries.Distinct.nil, fun entry impossible => by cases impossible⟩

namespace Written

variable {fields : Fields} {key : Text} {value : Value}

theorem distinct (written : Written (.record fields)) : Entries.Distinct fields :=
  (written_record.mp written).1

theorem of_mem (written : Written (.record fields)) {entry : Text × Value} (member : entry ∈ fields) :
    Written entry.2 := (written_record.mp written).2 entry member

theorem of_get? (written : Written (.record fields)) (found : Entries.get? key fields = some value) :
    Written value := written.of_mem (Entries.mem_of_get? found)

theorem orEmpty (written : Written (.record fields)) (key : Text) :
    Written (Entries.orEmpty key fields) := by
  unfold Entries.orEmpty Entries.getOr
  cases found : Entries.get? key fields with
  | none => exact written_nil
  | some value => exact written.of_get? found

theorem attributes (written : Written (.record fields)) :
    Written (.record (Entries.attributes fields)) := by
  unfold Entries.attributes
  split
  · rename_i found
    exact (written_object.mp (written.of_get? found)).2
  · exact written_nil

theorem filter (written : Written (.record fields)) (keep : Text × Value → Bool) :
    Written (.record (fields.filter keep)) :=
  written_record.mpr ⟨written.distinct.filter keep,
    fun _ member => written.of_mem (List.mem_of_mem_filter member)⟩

theorem erase (written : Written (.record fields)) (key : Text) :
    Written (.record (Entries.erase key fields)) := written.filter _

theorem put (written : Written (.record fields)) (given : Written value) (key : Text) :
    Written (.record (Entries.put key value fields)) := by
  refine written_record.mpr ⟨written.distinct.put key value, fun entry member => ?_⟩
  rcases Entries.mem_of_mem_put member with added | before
  · exact added ▸ given
  · exact written.of_mem before

theorem putNew (written : Written (.record fields)) (given : Written value) (key : Text) :
    Written (.record (Entries.putNew key value fields)) := by
  unfold Entries.putNew
  split
  · exact written
  · exact written.put given key

theorem mapValues (written : Written (.record fields)) {change : Value → Value}
    (each : ∀ value, Written value → Written (change value)) :
    Written (.record (Entries.mapValues change fields)) := by
  refine written_record.mpr ⟨written.distinct.mapValues change, fun entry member => ?_⟩
  obtain ⟨origin, present, same⟩ := List.mem_map.mp member
  exact same ▸ each origin.2 (written.of_mem present)

end Written

/-! ### No marks -/

mutual
theorem Written.plain : {value : Value} → Written value → Plain value
  | .object mark fields, written => by
      rw [Written] at written
      exact plain_object.mpr ⟨written.1, WrittenFields.plain written.2.2⟩
  | .null, _ | .bool _, _ | .int _, _ | .float _, _ | .text _, _ | .array _, _ => rfl
theorem WrittenFields.plain : {fields : List (Text × Value)} → WrittenFields fields →
    PlainFields fields
  | [], _ => plainFields_nil
  | (key, value) :: rest, written => by
      rw [WrittenFields] at written
      exact plainFields_cons.mpr ⟨Written.plain written.1, WrittenFields.plain written.2⟩
end

theorem Written.plainFields {fields : Fields} (written : Written (.record fields)) :
    PlainFields fields := (plain_object.mp written.plain).2

mutual
theorem shift_of_plain (amount : Nat) : (value : Value) → Plain value → shift amount value = value
  | .object mark fields, plain => by
      obtain ⟨unmarked, inside⟩ := plain_object.mp plain
      rw [shift, unmarked, shiftFields_of_plain amount fields inside]
      rfl
  | .null, _ | .bool _, _ | .int _, _ | .float _, _ | .text _, _ | .array _, _ => by
      simp only [shift]
theorem shiftFields_of_plain (amount : Nat) : (fields : List (Text × Value)) → PlainFields fields →
    shiftFields amount fields = fields
  | [], _ => by rw [shiftFields]
  | (key, value) :: rest, plain => by
      obtain ⟨own, others⟩ := plainFields_cons.mp plain
      rw [shiftFields, shift_of_plain amount value own, shiftFields_of_plain amount rest others]
end

theorem mark_of_not_object {value : Value} (shape : value.isObject = false) (next : Nat) :
    (mark next value).1 = value := by
  cases value with
  | object own fields => cases shape
  | null | bool _ | int _ | float _ | text _ | array _ => simp only [mark]

/-! ### Merging -/

mutual
theorem Written.merge : (dest source : Value) → Written dest → Written source →
    Written (dest.merge source)
  | .object own fields, .object mark source, whole, given => by
      rw [Written] at whole given
      rw [merge_object, Written]
      exact ⟨whole.1, distinct_mergeFields source whole.2.1,
        WrittenFields.merge fields source whole.2.2 given.2.2⟩
  | .null, source, _, given | .bool _, source, _, given | .int _, source, _, given
  | .float _, source, _, given | .text _, source, _, given | .array _, source, _, given => by
      rw [merge_apart (Or.inl rfl)]
      exact given
  | dest, .null, _, given | dest, .bool _, _, given | dest, .int _, _, given
  | dest, .float _, _, given | dest, .text _, _, given | dest, .array _, _, given => by
      rw [merge_apart (Or.inr rfl)]
      exact given
theorem WrittenFields.merge : (dest source : List (Text × Value)) → WrittenFields dest →
    WrittenFields source → WrittenFields (mergeFields dest source)
  | dest, [], whole, _ => by
      rw [mergeFields]
      exact whole
  | dest, (key, value) :: rest, whole, given => by
      rw [WrittenFields] at given
      rw [mergeFields]
      refine WrittenFields.merge _ rest (writtenFields_iff.mpr fun entry member => ?_) given.2
      rcases Entries.mem_of_mem_put member with added | before
      · rw [added]
        cases found : Entries.get? key dest with
        | none => exact given.1
        | some old =>
            exact Written.merge old value (writtenFields_iff.mp whole _ (Entries.mem_of_get? found))
              given.1
      · exact writtenFields_iff.mp whole entry before
end

theorem Written.mergeFields {fields source : Fields} (whole : Written (.record fields))
    (given : Written (.record source)) : Written (.record (Value.mergeFields fields source)) := by
  have merged := Written.merge _ _ whole given
  rw [record, record, merge_object] at merged
  exact merged

theorem overlayOne_of_plain {key : Text} {value : Value} {fields : Fields} (whole : PlainFields fields)
    (given : Plain value) (later : Fields) :
    overlayOne key value fields later =
      (Entries.put key (match Entries.get? key fields with
        | some old => merge old value
        | none => value) fields, later) := by
  cases found : Entries.get? key fields with
  | none => simp only [overlayOne, found]
  | some old =>
      by_cases both : old.isObject = true ∧ value.isObject = true
      · cases old with
        | object mark base => cases value with
          | object own changes =>
              have merged := (whole.of_get? found).merge (.object mark base) (.object own changes) given
              simp only [overlayOne, found]
              rw [putShared_of_plain merged, occurrences_of_plain _ merged, refreshFields_nil]
          | null | bool _ | int _ | float _ | text _ | array _ => cases both.2
        | null | bool _ | int _ | float _ | text _ | array _ => cases both.1
      · rw [not_and_or, Bool.not_eq_true, Bool.not_eq_true] at both
        simp only [merge_apart both]
        unfold overlayOne
        rw [found]
        split
        · rename_i same
          cases same
          rcases both with impossible | impossible <;> cases impossible
        · rfl

theorem overlay_of_plain {fields source : Fields} (whole : PlainFields fields)
    (given : PlainFields source) : overlay fields source = Value.mergeFields fields source := by
  induction source generalizing fields with
  | nil => rw [overlay, Value.mergeFields]
  | cons head rest ih =>
      obtain ⟨key, value⟩ := head
      obtain ⟨own, others⟩ := plainFields_cons.mp given
      rw [overlay, Value.mergeFields, overlayOne_of_plain whole own]
      refine ih (whole.put ?_ key) others
      cases found : Entries.get? key fields with
      | none => exact own
      | some old => exact (whole.of_get? found).merge old value own

end EventSchema.Value
