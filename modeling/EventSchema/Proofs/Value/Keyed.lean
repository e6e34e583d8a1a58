import EventSchema.Proofs.Value.Written

/-!
Values no object of which has a key twice.

Every document is such a value, and whatever is merged, filled in, copied or kept in step stays one.
Unlike in a written value, objects may be shared here.
-/

set_option autoImplicit false

namespace EventSchema.Value

mutual
/-- No object in the value has a key twice. What lies in lists is left out. -/
def Keyed : Value → Prop
  | object _ fields => Entries.Distinct fields ∧ KeyedFields fields
  | _ => True
def KeyedFields : List (Text × Value) → Prop
  | [] => True
  | (_, value) :: rest => Keyed value ∧ KeyedFields rest
end

mutual
def decKeyed : (value : Value) → Decidable (Keyed value)
  | object _ fields =>
    have := decKeyedFields fields
    decidable_of_iff ((Entries.keys fields).Nodup ∧ KeyedFields fields) (by rw [Keyed, Entries.Distinct])
  | .null | .bool _ | .int _ | .float _ | .text _ | .array _ => isTrue (by simp only [Keyed])
def decKeyedFields : (fields : List (Text × Value)) → Decidable (KeyedFields fields)
  | [] => isTrue (by rw [KeyedFields]; trivial)
  | (_, value) :: rest =>
    have := decKeyed value
    have := decKeyedFields rest
    decidable_of_iff (Keyed value ∧ KeyedFields rest) (by rw [KeyedFields])
end

instance : DecidablePred Keyed := decKeyed

theorem keyedFields_iff {fields : Fields} : KeyedFields fields ↔ ∀ entry ∈ fields, Keyed entry.2 := by
  induction fields with
  | nil => simp [KeyedFields]
  | cons head rest ih => rw [KeyedFields, ih, List.forall_mem_cons]

theorem keyed_of_not_object {value : Value} (shape : value.isObject = false) : Keyed value := by
  cases value with
  | object mark fields => cases shape
  | null | bool _ | int _ | float _ | text _ | array _ => simp only [Keyed]

theorem keyed_object {mark : Option Nat} {fields : Fields} :
    Keyed (.object mark fields) ↔ Keyed (.record fields) := by
  unfold record
  rw [Keyed, Keyed]

theorem keyed_record {fields : Fields} :
    Keyed (.record fields) ↔ Entries.Distinct fields ∧ ∀ entry ∈ fields, Keyed entry.2 := by
  rw [record, Keyed, keyedFields_iff]

theorem keyed_nil : Keyed (.record []) :=
  keyed_record.mpr ⟨Entries.Distinct.nil, fun _ impossible => by cases impossible⟩

mutual
theorem Written.keyed : (value : Value) → Written value → Keyed value
  | .object mark fields, written => by
      rw [Written] at written
      rw [Keyed]
      exact ⟨written.2.1, WrittenFields.keyed fields written.2.2⟩
  | .null, _ | .bool _, _ | .int _, _ | .float _, _ | .text _, _ | .array _, _ =>
      keyed_of_not_object rfl
theorem WrittenFields.keyed : (fields : List (Text × Value)) → WrittenFields fields → KeyedFields fields
  | [], _ => by rw [KeyedFields]; trivial
  | (key, value) :: rest, written => by
      rw [WrittenFields] at written
      rw [KeyedFields]
      exact ⟨Written.keyed value written.1, WrittenFields.keyed rest written.2⟩
end

/-! ### Reading and writing -/

namespace Keyed

variable {fields : Fields} {key : Text} {value : Value}

theorem distinct (keyed : Keyed (.record fields)) : Entries.Distinct fields := (keyed_record.mp keyed).1

theorem of_mem (keyed : Keyed (.record fields)) {entry : Text × Value} (member : entry ∈ fields) :
    Keyed entry.2 := (keyed_record.mp keyed).2 entry member

theorem of_get? (keyed : Keyed (.record fields)) (found : Entries.get? key fields = some value) :
    Keyed value := keyed.of_mem (Entries.mem_of_get? found)

theorem asFields (keyed : Keyed value) (opened : value.asFields = .ok fields) :
    Keyed (.record fields) := by
  cases value with
  | object mark own => exact Except.ok.inj opened ▸ keyed_object.mp keyed
  | null | bool _ | int _ | float _ | text _ | array _ => cases opened

theorem getOr (keyed : Keyed (.record fields)) (key : Text) {default : Value} (other : Keyed default) :
    Keyed (Entries.getOr key fields default) := by
  unfold Entries.getOr
  cases found : Entries.get? key fields with
  | none => exact other
  | some value => exact keyed.of_get? found

theorem orEmpty (keyed : Keyed (.record fields)) (key : Text) : Keyed (Entries.orEmpty key fields) :=
  keyed.getOr key keyed_nil

theorem orNull (keyed : Keyed (.record fields)) (key : Text) : Keyed (Entries.orNull key fields) :=
  keyed.getOr key (keyed_of_not_object rfl)

theorem attributes (keyed : Keyed (.record fields)) : Keyed (.record (Entries.attributes fields)) := by
  unfold Entries.attributes
  split
  · rename_i found
    exact keyed_object.mp (keyed.of_get? found)
  · exact keyed_nil

theorem fieldsOrNone (keyed : Keyed (.record fields)) {key : Text} {inner : Fields}
    (opened : Value.fieldsOrNone (Entries.get? key fields) = .ok inner) : Keyed (.record inner) := by
  unfold Value.fieldsOrNone at opened
  cases found : Entries.get? key fields with
  | none =>
      rw [found] at opened
      exact Except.ok.inj opened ▸ keyed_nil
  | some value =>
      rw [found] at opened
      dsimp only at opened
      split at opened
      · exact (keyed.of_get? found).asFields opened
      · exact Except.ok.inj opened ▸ keyed_nil

theorem filter (keyed : Keyed (.record fields)) (keep : Text × Value → Bool) :
    Keyed (.record (fields.filter keep)) :=
  keyed_record.mpr ⟨keyed.distinct.filter keep,
    fun _ member => keyed.of_mem (List.mem_of_mem_filter member)⟩

theorem erase (keyed : Keyed (.record fields)) (key : Text) :
    Keyed (.record (Entries.erase key fields)) := keyed.filter _

theorem put (keyed : Keyed (.record fields)) (given : Keyed value) (key : Text) :
    Keyed (.record (Entries.put key value fields)) := by
  refine keyed_record.mpr ⟨keyed.distinct.put key value, fun entry member => ?_⟩
  rcases Entries.mem_of_mem_put member with added | before
  · exact added ▸ given
  · exact keyed.of_mem before

theorem putNew (keyed : Keyed (.record fields)) (given : Keyed value) (key : Text) :
    Keyed (.record (Entries.putNew key value fields)) := by
  unfold Entries.putNew
  split
  · exact keyed
  · exact keyed.put given key

theorem perm (keyed : Keyed (.record fields)) {others : Fields} (perm : fields.Perm others) :
    Keyed (.record others) :=
  keyed_record.mpr ⟨(perm.map Prod.fst).nodup_iff.mp keyed.distinct,
    fun _ member => keyed.of_mem (perm.mem_iff.mpr member)⟩

theorem mapValues (keyed : Keyed (.record fields)) {change : Value → Value}
    (each : ∀ value, Keyed value → Keyed (change value)) :
    Keyed (.record (Entries.mapValues change fields)) := by
  refine keyed_record.mpr ⟨keyed.distinct.mapValues change, fun entry member => ?_⟩
  obtain ⟨origin, present, same⟩ := List.mem_map.mp member
  exact same ▸ each origin.2 (keyed.of_mem present)

theorem related {relation : Text → Value → Value → Prop} {results : Fields}
    (keyed : Keyed (.record fields)) (treated : Entries.Related relation fields results)
    (each : ∀ key value result, relation key value result → Keyed value → Keyed result) :
    Keyed (.record results) := by
  refine keyed_record.mpr ⟨treated.distinct keyed.distinct, fun entry member => ?_⟩
  obtain ⟨origin, known, step⟩ := treated.mem_right member
  exact each _ _ _ step (keyed.of_mem known)

end Keyed

/-! ### Merging -/

mutual
theorem Keyed.merge : (dest source : Value) → Keyed dest → Keyed source → Keyed (dest.merge source)
  | .object own fields, .object mark source, whole, given => by
      rw [Keyed] at whole given
      rw [merge_object, Keyed]
      exact ⟨distinct_mergeFields source whole.1, KeyedFields.merge fields source whole.2 given.2⟩
  | .null, source, _, given | .bool _, source, _, given | .int _, source, _, given
  | .float _, source, _, given | .text _, source, _, given | .array _, source, _, given => by
      rw [merge_apart (Or.inl rfl)]
      exact given
  | dest, .null, _, given | dest, .bool _, _, given | dest, .int _, _, given
  | dest, .float _, _, given | dest, .text _, _, given | dest, .array _, _, given => by
      rw [merge_apart (Or.inr rfl)]
      exact given
theorem KeyedFields.merge : (dest source : List (Text × Value)) → KeyedFields dest →
    KeyedFields source → KeyedFields (mergeFields dest source)
  | dest, [], whole, _ => by
      rw [mergeFields]
      exact whole
  | dest, (key, value) :: rest, whole, given => by
      rw [KeyedFields] at given
      rw [mergeFields]
      refine KeyedFields.merge _ rest (keyedFields_iff.mpr fun entry member => ?_) given.2
      rcases Entries.mem_of_mem_put member with added | before
      · rw [added]
        cases found : Entries.get? key dest with
        | none => exact given.1
        | some old =>
            exact Keyed.merge old value (keyedFields_iff.mp whole _ (Entries.mem_of_get? found)) given.1
      · exact keyedFields_iff.mp whole entry before
end

theorem Keyed.mergeFields {fields source : Fields} (whole : Keyed (.record fields))
    (given : Keyed (.record source)) : Keyed (.record (Value.mergeFields fields source)) := by
  have merged := Keyed.merge _ _ whole given
  rw [record, record, merge_object] at merged
  exact merged

/-! ### Shared objects -/

mutual
theorem Keyed.occurrences : (value : Value) → Keyed value →
    ∀ known ∈ occurrences value, Keyed known.2
  | .object (some mark) fields, keyed => by
      rw [Value.occurrences, List.forall_mem_cons]
      rw [Keyed] at keyed
      exact ⟨by rw [Keyed]; exact keyed, KeyedFields.occurrences fields keyed.2⟩
  | .object none fields, keyed => by
      rw [Value.occurrences]
      rw [Keyed] at keyed
      exact KeyedFields.occurrences fields keyed.2
  | .null, _ | .bool _, _ | .int _, _ | .float _, _ | .text _, _ | .array _, _ => by
      simp [Value.occurrences]
theorem KeyedFields.occurrences : (fields : List (Text × Value)) → KeyedFields fields →
    ∀ known ∈ occurrencesFields fields, Keyed known.2
  | [], _ => by simp [occurrencesFields]
  | (key, value) :: rest, keyed => by
      rw [KeyedFields] at keyed
      rw [occurrencesFields, List.forall_mem_append]
      exact ⟨Keyed.occurrences value keyed.1, KeyedFields.occurrences rest keyed.2⟩
end

mutual
theorem Keyed.refresh {known : Occurrences} (all : ∀ entry ∈ known, Keyed entry.2) :
    (value : Value) → Keyed value → Keyed (value.refresh known)
  | .object mark fields, keyed => by
      rw [Value.refresh]
      cases found : current? known mark with
      | none =>
          rw [Keyed] at keyed
          dsimp only
          rw [Keyed, Entries.Distinct, keys_refreshFields]
          exact ⟨keyed.1, KeyedFields.refresh all fields keyed.2⟩
      | some present =>
          obtain ⟨place, _, member⟩ := mem_of_current? found
          exact all _ member
  | .null, _ | .bool _, _ | .int _, _ | .float _, _ | .text _, _ | .array _, _ => by
      rw [Value.refresh]
      · exact keyed_of_not_object rfl
      · simp
theorem KeyedFields.refresh {known : Occurrences} (all : ∀ entry ∈ known, Keyed entry.2) :
    (fields : List (Text × Value)) → KeyedFields fields → KeyedFields (refreshFields known fields)
  | [], keyed => by
      rw [refreshFields]
      exact keyed
  | (key, value) :: rest, keyed => by
      rw [KeyedFields] at keyed
      rw [refreshFields, KeyedFields]
      exact ⟨Keyed.refresh all value keyed.1, KeyedFields.refresh all rest keyed.2⟩
end

theorem Keyed.refreshFields {known : Occurrences} (all : ∀ entry ∈ known, Keyed entry.2) {fields : Fields}
    (keyed : Keyed (.record fields)) : Keyed (.record (Value.refreshFields known fields)) := by
  refine keyed_record.mpr ⟨?_, keyedFields_iff.mp
    (KeyedFields.refresh all fields (keyedFields_iff.mpr (keyed_record.mp keyed).2))⟩
  rw [Entries.Distinct, keys_refreshFields]
  exact keyed.distinct

theorem Keyed.putShared {fields : Fields} {value : Value} (keyed : Keyed (.record fields))
    (given : Keyed value) (key : Text) : Keyed (.record (Value.putShared key value fields)) :=
  (keyed.put given key).refreshFields (Keyed.occurrences value given)

theorem Keyed.overlayOne {fields later : Fields} {value : Value} (keyed : Keyed (.record fields))
    (key : Text) (rest : Keyed (.record later)) (given : Keyed value) :
    Keyed (.record (Value.overlayOne key value fields later).1) ∧
      Keyed (.record (Value.overlayOne key value fields later).2) := by
  unfold Value.overlayOne
  split
  · rename_i mark base own source found
    have merged := Keyed.merge (.object mark base) (.object own source) (keyed.of_get? found) given
    exact ⟨keyed.putShared merged key, rest.refreshFields (Keyed.occurrences _ merged)⟩
  · exact ⟨keyed.put given key, rest⟩

theorem keyed_cons {entry : Text × Value} {rest : Fields} (keyed : Keyed (.record (entry :: rest))) :
    Keyed entry.2 ∧ Keyed (.record rest) := by
  obtain ⟨distinct, each⟩ := keyed_record.mp keyed
  obtain ⟨own, others⟩ := List.forall_mem_cons.mp each
  exact ⟨own, keyed_record.mpr ⟨(List.nodup_cons.mp distinct).2, others⟩⟩

theorem Keyed.overlay {fields source : Fields} (keyed : Keyed (.record fields))
    (given : Keyed (.record source)) : Keyed (.record (Value.overlay fields source)) := by
  induction fields, source using Value.overlay.induct with
  | case1 fields =>
      rw [Value.overlay]
      exact keyed
  | case2 fields key value later ih =>
      obtain ⟨own, rest⟩ := keyed_cons given
      obtain ⟨first, second⟩ := keyed.overlayOne key rest own
      rw [Value.overlay]
      exact ih first second

mutual
theorem Keyed.unshared : (value : Value) → Keyed value → Keyed value.unshared
  | .object mark fields, keyed => by
      rw [Keyed] at keyed
      rw [Value.unshared, Keyed, Entries.Distinct, keys_unsharedFields]
      exact ⟨keyed.1, KeyedFields.unshared fields keyed.2⟩
  | .null, _ | .bool _, _ | .int _, _ | .float _, _ | .text _, _ | .array _, _ => by
      rw [Value.unshared]
      · exact keyed_of_not_object rfl
      · simp
theorem KeyedFields.unshared : (fields : List (Text × Value)) → KeyedFields fields →
    KeyedFields (unsharedFields fields)
  | [], keyed => by
      rw [unsharedFields]
      exact keyed
  | (key, value) :: rest, keyed => by
      rw [KeyedFields] at keyed
      rw [unsharedFields, KeyedFields]
      exact ⟨Keyed.unshared value keyed.1, KeyedFields.unshared rest keyed.2⟩
end

mutual
theorem Keyed.shift (amount : Nat) : (value : Value) → Keyed value → Keyed (value.shift amount)
  | .object mark fields, keyed => by
      rw [Keyed] at keyed
      rw [Value.shift, Keyed, Entries.Distinct, keys_shiftFields]
      exact ⟨keyed.1, KeyedFields.shift amount fields keyed.2⟩
  | .null, _ | .bool _, _ | .int _, _ | .float _, _ | .text _, _ | .array _, _ => by
      rw [Value.shift]
      · exact keyed_of_not_object rfl
      · simp
theorem KeyedFields.shift (amount : Nat) : (fields : List (Text × Value)) → KeyedFields fields →
    KeyedFields (shiftFields amount fields)
  | [], keyed => by
      rw [shiftFields]
      exact keyed
  | (key, value) :: rest, keyed => by
      rw [KeyedFields] at keyed
      rw [shiftFields, KeyedFields]
      exact ⟨Keyed.shift amount value keyed.1, KeyedFields.shift amount rest keyed.2⟩
end

theorem Keyed.shiftFields (amount : Nat) {fields : Fields} (keyed : Keyed (.record fields)) :
    Keyed (.record (Value.shiftFields amount fields)) := by
  have shifted := Keyed.shift amount _ keyed
  rw [record, Value.shift] at shifted
  exact keyed_object.mp shifted

mutual
theorem Keyed.mark (next : Nat) : (value : Value) → Keyed value → Keyed (value.mark next).1
  | .object own fields, keyed => by
      rw [Keyed] at keyed
      rw [Value.mark]
      dsimp only
      obtain ⟨keys, inside⟩ := KeyedFields.mark (next + 1) fields keyed.2
      rw [Keyed, Entries.Distinct, keys]
      exact ⟨keyed.1, inside⟩
  | .null, _ | .bool _, _ | .int _, _ | .float _, _ | .text _, _ | .array _, _ => by
      rw [mark_of_not_object rfl]
      exact keyed_of_not_object rfl
theorem KeyedFields.mark (next : Nat) : (fields : List (Text × Value)) → KeyedFields fields →
    Entries.keys (markFields next fields).1 = Entries.keys fields ∧
      KeyedFields (markFields next fields).1
  | [], keyed => by
      rw [markFields]
      exact ⟨rfl, keyed⟩
  | (key, value) :: rest, keyed => by
      rw [KeyedFields] at keyed
      obtain ⟨keys, inside⟩ := KeyedFields.mark (value.mark next).2 rest keyed.2
      rw [markFields]
      dsimp only
      rw [KeyedFields]
      exact ⟨congrArg (key :: ·) keys, Keyed.mark next value keyed.1, inside⟩
end

theorem Keyed.markFields (next : Nat) {fields : Fields} (keyed : Keyed (.record fields)) :
    Keyed (.record (Value.markFields next fields).1) := by
  obtain ⟨keys, inside⟩ := KeyedFields.mark next fields (keyedFields_iff.mpr (keyed_record.mp keyed).2)
  refine keyed_record.mpr ⟨?_, keyedFields_iff.mp inside⟩
  rw [Entries.Distinct, keys]
  exact keyed.distinct

end EventSchema.Value
