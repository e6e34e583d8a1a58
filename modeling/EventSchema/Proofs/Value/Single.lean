import EventSchema.Proofs.Contribution.Settled
import EventSchema.Proofs.Value.Written

/-!
Fields with each value in one place.

The attributes of a document are written out one by one, so none of them is shared with another place;
only what lies inside them can be. Merging them with those of other documents and keeping shared objects
in step leaves it so.
-/

set_option autoImplicit false

namespace EventSchema.Value

theorem single_record (fields : Fields) : (Value.record fields).Single := by
  rintro mark inner ⟨⟩
  rfl

theorem Written.single {value : Value} (written : Written value) : value.Single := by
  rintro mark fields rfl
  exact (written_object.mp written).1

theorem Single.shape {value : Value} (single : value.Single) :
    value.isObject = false ∨ ∃ fields, value = .record fields := by
  cases value with
  | object mark fields =>
      cases single mark fields rfl
      exact Or.inr ⟨fields, rfl⟩
  | null | bool _ | int _ | float _ | text _ | array _ => exact Or.inl rfl

theorem Single.merge {dest source : Value} (whole : dest.Single) (given : source.Single) :
    (dest.merge source).Single := by
  rcases whole.shape with apart | ⟨fields, rfl⟩
  · rwa [merge_apart (Or.inl apart)]
  · rcases given.shape with apart | ⟨added, rfl⟩
    · rwa [merge_apart (Or.inr apart)]
    · rw [record, record, merge_object]
      exact single_record _

theorem Renews.single {onValue : Value → Value} {onFields : Fields → Fields}
    (renews : Renews onValue onFields) {value : Value} (single : value.Single) :
    (onValue value).Single := by
  rcases single.shape with apart | ⟨fields, rfl⟩
  · rwa [renews.leaf value apart]
  · rw [renews.record]
    exact single_record _

def SingleEach (fields : Fields) : Prop := ∀ entry ∈ fields, entry.2.Single

namespace SingleEach

variable {fields : Fields} {key : Text} {value : Value}

theorem nil : SingleEach [] := List.forall_mem_nil _

theorem of_get? (each : SingleEach fields) (found : Entries.get? key fields = some value) :
    value.Single := each _ (Entries.mem_of_get? found)

theorem filter (each : SingleEach fields) (keep : Text × Value → Bool) :
    SingleEach (fields.filter keep) :=
  fun entry member => each entry (List.mem_of_mem_filter member)

theorem put (each : SingleEach fields) (key : Text) (given : value.Single) :
    SingleEach (Entries.put key value fields) := by
  intro entry member
  rcases Entries.mem_of_mem_put member with written | before
  · exact written ▸ given
  · exact each entry before

/-- Values changed one by one, each object keeping its place. -/
theorem mapValues (each : SingleEach fields) {change : Value → Value}
    (kept : ∀ value, value.Single → (change value).Single) :
    SingleEach (Entries.mapValues change fields) := by
  intro entry member
  obtain ⟨origin, known, rfl⟩ := List.mem_map.mp member
  exact kept _ (each origin known)

theorem related (each : SingleEach fields) {relation : Text → Value → Value → Prop} {results : Fields}
    (treated : Entries.Related relation fields results)
    (kept : ∀ key value result, relation key value result → value.Single → result.Single) :
    SingleEach results := by
  intro entry member
  obtain ⟨origin, known, step⟩ := treated.mem_right member
  exact kept _ _ _ step (each _ known)

theorem refreshFields (each : SingleEach fields) {known : Occurrences}
    (objects : ∀ entry ∈ known, entry.2.isObject = true) :
    SingleEach (Value.refreshFields known fields) := by
  intro entry member
  obtain ⟨before, present, same⟩ := exists_of_mem_refreshFields member
  exact same ▸ (renews_refresh objects).single (each _ present)

theorem putShared (each : SingleEach fields) (key : Text) (given : value.Single) :
    SingleEach (Value.putShared key value fields) :=
  (each.put key given).refreshFields (isObject_of_mem_occurrences value)

theorem shiftFields (each : SingleEach fields) (amount : Nat) :
    SingleEach (Value.shiftFields amount fields) := by
  induction fields with
  | nil =>
      rw [Value.shiftFields]
      exact nil
  | cons head rest ih =>
      obtain ⟨own, others⟩ := List.forall_mem_cons.mp each
      rw [Value.shiftFields]
      exact List.forall_mem_cons.mpr ⟨(renews_shift amount).single own, ih others⟩

theorem shift {value : Value} (each : SingleEach value.inner) (amount : Nat) :
    SingleEach (value.shift amount).inner := by
  cases value with
  | object mark fields =>
      rw [Value.shift]
      exact each.shiftFields amount
  | null | bool _ | int _ | float _ | text _ | array _ =>
      rw [Value.shift]
      · exact nil
      · simp

theorem overlayOne {later : Fields} (each : SingleEach fields) (key : Text) (rest : SingleEach later)
    (given : value.Single) :
    SingleEach (Value.overlayOne key value fields later).1 ∧
      SingleEach (Value.overlayOne key value fields later).2 := by
  unfold Value.overlayOne
  split
  · rename_i mark base own source found
    exact ⟨each.putShared key ((each.of_get? found).merge given),
      rest.refreshFields (isObject_of_mem_occurrences _)⟩
  · exact ⟨each.put key given, rest⟩

theorem overlay {source : Fields} (each : SingleEach fields) (given : SingleEach source) :
    SingleEach (Value.overlay fields source) := by
  induction fields, source using Value.overlay.induct with
  | case1 fields =>
      rw [Value.overlay]
      exact each
  | case2 fields key value later ih =>
      obtain ⟨own, rest⟩ := List.forall_mem_cons.mp given
      obtain ⟨first, second⟩ := each.overlayOne key rest own
      rw [Value.overlay]
      exact ih first second

end SingleEach

end EventSchema.Value
