import EventSchema.Proofs.Value.Plain
import EventSchema.Record.Attribute

/-!
Records of attributes.

A record shows every field that it was read from, except known ones that are null. Nothing that is
merged over it can tell it from those fields.
-/

set_option autoImplicit false

namespace EventSchema

namespace Entries

theorem get?_present (known : List Text) (key : Text) (fields : Fields) :
    get? key (present (known.map fun name => (name, orNull name fields))) =
      if key ∈ known then (get? key fields).filter (fun value => !value.isNull) else none := by
  induction known with
  | nil => rfl
  | cons name rest ih =>
      rw [List.map_cons, present, List.filter_cons]
      rw [present] at ih
      by_cases same : key = name
      · subst same
        rw [if_pos (List.mem_cons_self ..)]
        cases found : get? key fields with
        | none =>
            rw [orNull, getOr, found, if_neg (by simp [Value.isNull]), ih]
            simp [found]
        | some value =>
            rw [orNull, getOr, found, Option.getD_some, Option.filter_some]
            cases null : value.isNull with
            | true =>
                rw [if_neg (by simp), ih]
                simp [found, null]
            | false =>
                rw [if_pos (by simp), get?_cons, if_pos rfl]
                simp
      · have elsewhere : (key ∈ name :: rest) = (key ∈ rest) := by simp [same]
        split
        · rw [get?_cons, if_neg (Ne.symm same), ih]
          simp only [elsewhere]
        · rw [ih]
          simp only [elsewhere]

theorem get?_beside (known : List Text) (key : Text) (fields : Fields) :
    get? key (beside known fields) = if key ∈ known then none else get? key fields := by
  rw [beside, get?_filter (fun name => !known.contains name)]
  by_cases member : key ∈ known
  · simp [member]
  · simp [member]

theorem beside_mapValues (names : List Text) (change : Value → Value) (fields : Fields) :
    beside names (mapValues change fields) = mapValues change (beside names fields) :=
  List.filter_map

private theorem present_mapValues {change : Value → Value} (same : ∀ value, (change value).isNull = value.isNull)
    (fields : Fields) : present (mapValues change fields) = mapValues change (present fields) := by
  unfold present mapValues
  rw [List.filter_map]
  refine congrArg _ (List.filter_congr fun entry _ => ?_)
  exact congrArg not (same entry.2)

end Entries

namespace Attribute

/-- A field as records show it: a known one is left out if it is null. -/
def shown (key : Text) (value : Option Value) : Option Value :=
  if key ∈ knownKeys then value.filter fun value => !value.isNull else value

theorem get?_toFields (name key : Text) (fields : Fields) :
    Entries.get? key (ofFields name fields).toFields = shown key (Entries.get? key fields) := by
  have listed : (ofFields name fields).toFields =
      Entries.present (knownKeys.map fun key => (key, Entries.orNull key fields)) ++
        Entries.beside knownKeys fields := rfl
  rw [listed, Entries.get?_append, Entries.get?_present, Entries.get?_beside, shown]
  by_cases known : key ∈ knownKeys
  · simp [known]
  · simp [known]

/-- What a copy of an attribute shows is a copy of what the attribute shows. -/
theorem unshared_toFields (name : Text) (fields : Fields) :
    Value.unsharedFields (ofFields name fields).toFields = (ofFields name (Value.unsharedFields fields)).toFields := by
  have listed (fields : Fields) : (ofFields name fields).toFields =
      Entries.present (knownKeys.map fun key => (key, Entries.orNull key fields)) ++
        Entries.beside knownKeys fields := rfl
  have orNull (key : Text) : Entries.orNull key (Value.unsharedFields fields) =
      (Entries.orNull key fields).unshared := by
    unfold Entries.orNull Entries.getOr
    rw [Value.get?_unsharedFields]
    cases Entries.get? key fields <;> simp [Value.unshared]
  have known : knownKeys.map (fun key => (key, Entries.orNull key (Value.unsharedFields fields))) =
      Entries.mapValues Value.unshared (knownKeys.map fun key => (key, Entries.orNull key fields)) := by
    simp only [orNull, Entries.mapValues, List.map_map]
    rfl
  rw [listed, listed, known, Entries.present_mapValues Value.isNull_unshared, Value.unsharedFields_eq_mapValues,
    Value.unsharedFields_eq_mapValues, Entries.beside_mapValues]
  exact List.map_append

theorem shown_idem (key : Text) (value : Option Value) : shown key (shown key value) = shown key value := by
  unfold shown
  split
  · cases value with
    | none => rfl
    | some value => cases null : value.isNull <;> simp
  · rfl

theorem shown_map {change : Value → Value} (same : ∀ value, (change value).isNull = value.isNull) (key : Text)
    (value : Option Value) : (shown key value).map change = shown key (value.map change) := by
  unfold shown
  split
  · cases value with
    | none => rfl
    | some value =>
        rw [Option.map_some, Option.filter_some, Option.filter_some, same]
        split <;> rfl
  · rfl

def mergedOver (old : Option Value) (value : Value) : Value :=
  match old with
  | some old => Value.merge old value
  | none => value

private theorem mergedOver_shown (key : Text) (old : Option Value) (value : Value) :
    mergedOver (shown key old) value = mergedOver old value := by
  unfold shown
  split
  · cases old with
    | none => rfl
    | some old =>
        cases old with
        | null => exact (Value.merge_apart (Or.inl rfl)).symm
        | bool _ | int _ | float _ | text _ | array _ | object _ _ => rfl
  · rfl

theorem shown_mergeFields {key : Text} (source : List (Text × Value)) {one other : Fields}
    (same : shown key (Entries.get? key one) = shown key (Entries.get? key other)) :
    shown key (Entries.get? key (Value.mergeFields one source)) =
      shown key (Entries.get? key (Value.mergeFields other source)) := by
  induction source generalizing one other with
  | nil =>
      rw [Value.mergeFields, Value.mergeFields]
      exact same
  | cons head rest ih =>
      obtain ⟨name, value⟩ := head
      rw [Value.mergeFields, Value.mergeFields]
      apply ih
      rw [Entries.get?_put, Entries.get?_put]
      split
      · rename_i here
        subst here
        exact congrArg (shown key <| some ·) ((mergedOver_shown key _ value).symm.trans
          ((congrArg (mergedOver · value) same).trans (mergedOver_shown key _ value)))
      · exact same

end Attribute

end EventSchema
