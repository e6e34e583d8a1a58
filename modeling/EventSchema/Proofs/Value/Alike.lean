import EventSchema.Proofs.Value.Keyed
import EventSchema.Proofs.Value.Same
import EventSchema.Value.Access

/-!
Values that are the same up to the order of keys.

Objects are alike that have alike values under the same keys; everything else is alike only to itself. What
is asked of a value in one step is answered the same by a value alike, and copying, merging and keeping in
step give alike values for alike ones. Only spelling an object out tells the order of its keys.
-/

set_option autoImplicit false

namespace EventSchema

namespace Value

inductive Alike : Value → Value → Prop where
  | same (value : Value) : Alike value value
  | object {mark : Option Nat} {fields others : Fields} (distinct : Entries.Distinct fields)
      (distinct' : Entries.Distinct others)
      (keys : ∀ key, Entries.has key fields = Entries.has key others)
      (each : ∀ key value other, Entries.get? key fields = some value → Entries.get? key others = some other →
        Alike value other) :
      Alike (.object mark fields) (.object mark others)

def AlikeFields (fields others : Fields) : Prop := Alike (.record fields) (.record others)

variable {value other : Value} {fields others : Fields} {mark : Option Nat}

theorem alike_object_iff {own : Option Nat} :
    Alike (.object mark fields) (.object own others) ↔ mark = own ∧ AlikeFields fields others := by
  constructor
  · rintro (_ | ⟨distinct, distinct', keys, each⟩)
    · exact ⟨rfl, .same _⟩
    · exact ⟨rfl, .object distinct distinct' keys each⟩
  · rintro ⟨rfl, _ | ⟨distinct, distinct', keys, each⟩⟩
    · exact .same _
    · exact .object distinct distinct' keys each

theorem Alike.cases (alike : Alike value other) : value = other ∨ ∃ mark fields others,
    value = .object mark fields ∧ other = .object mark others ∧ AlikeFields fields others := by
  cases alike with
  | same => exact .inl rfl
  | object distinct distinct' keys each => exact .inr ⟨_, _, _, rfl, rfl, .object distinct distinct' keys each⟩

theorem alikeFields_of_get? (distinct : Entries.Distinct fields) (distinct' : Entries.Distinct others)
    (each : ∀ key, Option.Rel Alike (Entries.get? key fields) (Entries.get? key others)) :
    AlikeFields fields others := by
  refine .object distinct distinct' (fun key => ?_) fun key value other found held => ?_
  · have here := each key
    unfold Entries.has
    generalize Entries.get? key fields = one, Entries.get? key others = two at here
    cases here <;> rfl
  · have here := each key
    rw [found, held] at here
    cases here with
    | some alike => exact alike

namespace AlikeFields

theorem refl (fields : Fields) : AlikeFields fields fields := .same _

theorem get? (alike : AlikeFields fields others) (key : Text) :
    Option.Rel Alike (Entries.get? key fields) (Entries.get? key others) := by
  cases alike with
  | same =>
      cases Entries.get? key fields with
      | none => exact .none
      | some value => exact .some (.same value)
  | object _ _ keys each =>
      have present := keys key
      unfold Entries.has at present
      cases found : Entries.get? key fields with
      | none =>
          rw [found] at present
          rw [Option.isSome_eq_false_iff.mp present.symm |> Option.isNone_iff_eq_none.mp]
          exact .none
      | some value =>
          rw [found] at present
          obtain ⟨other, held⟩ := Option.isSome_iff_exists.mp present.symm
          rw [held]
          exact .some (each key value other found held)

theorem has_eq (alike : AlikeFields fields others) (key : Text) :
    Entries.has key fields = Entries.has key others := by
  have here := alike.get? key
  unfold Entries.has
  generalize Entries.get? key fields = one, Entries.get? key others = two at here
  cases here <;> rfl

theorem getOr (alike : AlikeFields fields others) (key : Text) (default : Value) :
    Alike (Entries.getOr key fields default) (Entries.getOr key others default) := by
  have here := alike.get? key
  unfold Entries.getOr
  generalize Entries.get? key fields = one, Entries.get? key others = two at here
  cases here with
  | some alike => exact alike
  | none => exact .same default

theorem orNull (alike : AlikeFields fields others) (key : Text) :
    Alike (Entries.orNull key fields) (Entries.orNull key others) := alike.getOr key .null

theorem isEmpty_eq (alike : AlikeFields fields others) : fields.isEmpty = others.isEmpty := by
  have empty {fields others : Fields} (same : ∀ key, Entries.has key fields = Entries.has key others)
      (none : fields.isEmpty = true) : others.isEmpty = true := by
    cases others with
    | nil => rfl
    | cons head rest =>
        rw [List.isEmpty_iff.mp none] at same
        have present := same head.1
        rw [Entries.has, Entries.has, Entries.get?_cons, if_pos rfl] at present
        cases present
  rw [Bool.eq_iff_iff]
  exact ⟨empty alike.has_eq, empty fun key => (alike.has_eq key).symm⟩

theorem put (alike : AlikeFields fields others) (key : Text) (value : Value) :
    AlikeFields (Entries.put key value fields) (Entries.put key value others) := by
  have each := alike.get?
  cases alike with
  | same => exact .same _
  | object distinct distinct' =>
      refine alikeFields_of_get? (distinct.put key value) (distinct'.put key value) fun name => ?_
      rw [Entries.get?_put, Entries.get?_put]
      split
      · exact .some (.same value)
      · exact each name

theorem filter (alike : AlikeFields fields others) (keep : Text → Bool) :
    AlikeFields (fields.filter fun entry => keep entry.1) (others.filter fun entry => keep entry.1) := by
  have each := alike.get?
  cases alike with
  | same => exact .same _
  | object distinct distinct' =>
      refine alikeFields_of_get? (distinct.filter _) (distinct'.filter _) fun name => ?_
      rw [Entries.get?_filter, Entries.get?_filter]
      split
      · exact each name
      · exact .none

theorem erase (alike : AlikeFields fields others) (key : Text) :
    AlikeFields (Entries.erase key fields) (Entries.erase key others) :=
  alike.filter fun name => decide (name ≠ key)

end AlikeFields

/-- A value written over fields that share a place in an order may itself be in another order. -/
theorem alikeFields_put (distinct : Entries.Distinct fields) (key : Text) (alike : Alike value other) :
    AlikeFields (Entries.put key value fields) (Entries.put key other fields) := by
  refine alikeFields_of_get? (distinct.put key value) (distinct.put key other) fun name => ?_
  rw [Entries.get?_put, Entries.get?_put]
  split
  · exact .some alike
  · exact (AlikeFields.refl fields).get? name

/-! ### Questions in one step -/

namespace Alike

theorem record (alike : AlikeFields fields others) : Alike (.record fields) (.record others) := alike

theorem isNull_eq (alike : Alike value other) : value.isNull = other.isNull := by
  obtain rfl | ⟨_, _, _, rfl, rfl, _⟩ := alike.cases <;> rfl

theorem isKey_eq (alike : Alike value other) : value.isKey = other.isKey := by
  obtain rfl | ⟨_, _, _, rfl, rfl, _⟩ := alike.cases <;> rfl

theorem truthy_eq (alike : Alike value other) : value.truthy = other.truthy := by
  obtain rfl | ⟨_, _, _, rfl, rfl, inside⟩ := alike.cases
  · rfl
  · exact congrArg (!·) inside.isEmpty_eq

theorem text_iff (alike : Alike value other) (text : Text) : value = .text text ↔ other = .text text := by
  obtain rfl | ⟨_, _, _, rfl, rfl, _⟩ := alike.cases
  · exact Iff.rfl
  · simp

theorem equals_text (alike : Alike value other) (text : Text) :
    value.equals (.text text) = other.equals (.text text) := by
  rw [Bool.eq_iff_iff, Value.equals_text, Value.equals_text, alike.text_iff]

/-- Whether a text is a member does not depend on the order of keys. -/
theorem member_text (alike : Alike value other) (text : Text) :
    (Value.text text).member value = (Value.text text).member other := by
  obtain rfl | ⟨_, _, _, rfl, rfl, inside⟩ := alike.cases
  · rfl
  · exact congrArg Except.ok (inside.has_eq text)

theorem member_object (alike : Alike value other) (fields : Fields) :
    value.member (.object mark fields) = other.member (.object mark fields) := by
  obtain rfl | ⟨_, _, _, rfl, rfl, _⟩ := alike.cases <;> rfl

theorem asFields (alike : Alike value other) {fields : Fields} (opened : value.asFields = .ok fields) :
    ∃ others, other.asFields = .ok others ∧ AlikeFields fields others := by
  obtain rfl | ⟨_, _, _, rfl, rfl, inside⟩ := alike.cases
  · exact ⟨fields, opened, .refl fields⟩
  · cases opened
    exact ⟨_, rfl, inside⟩

end Alike

/-! ### Copies and merges -/

theorem Alike.unshared (alike : Alike value other) : Alike value.unshared other.unshared := by
  induction alike with
  | same => exact .same _
  | @object mark fields others distinct distinct' keys each ih =>
      have whole : AlikeFields fields others := .object distinct distinct' keys each
      rw [Value.unshared, Value.unshared]
      refine alikeFields_of_get? ?_ ?_ fun key => ?_
      · rwa [Entries.Distinct, keys_unsharedFields]
      · rwa [Entries.Distinct, keys_unsharedFields]
      · rw [get?_unsharedFields, get?_unsharedFields]
        have here := whole.get? key
        generalize found : Entries.get? key fields = one, held : Entries.get? key others = two at here ⊢
        cases here with
        | none => exact .none
        | some _ => exact .some (ih key _ _ found held)

theorem Alike.merge {dest : Value} (keyed : Keyed dest) (alike : Alike value other) :
    Alike (dest.merge value) (dest.merge other) := by
  induction alike generalizing dest with
  | same => exact .same _
  | @object mark fields others distinct distinct' keys each ih =>
      have whole : Alike (.object mark fields) (.object mark others) := .object distinct distinct' keys each
      cases dest with
      | object own base =>
          have inside := keyed_object.mp keyed
          rw [merge_object, merge_object]
          refine alike_object_iff.mpr ⟨rfl, alikeFields_of_get? (distinct_mergeFields _ inside.distinct)
            (distinct_mergeFields _ inside.distinct) fun key => ?_⟩
          rw [get?_mergeFields key base distinct, get?_mergeFields key base distinct']
          have here := (alike_object_iff.mp whole).2.get? key
          generalize found : Entries.get? key fields = one, held : Entries.get? key others = two at here ⊢
          cases here with
          | none => exact (AlikeFields.refl base).get? key
          | some _ =>
              cases known : Entries.get? key base with
              | none => exact .some (each key _ _ found held)
              | some old => exact .some (ih key _ _ found held (inside.of_get? known))
      | null | bool _ | int _ | float _ | text _ | array _ =>
          rw [merge_apart (Or.inl rfl), merge_apart (Or.inl rfl)]
          exact whole

theorem Alike.mergeInto {dest : Value} (keyed : Keyed dest) (alike : Alike value other) :
    Alike (dest.mergeInto value) (dest.mergeInto other) := by
  obtain rfl | ⟨_, _, _, rfl, rfl, _⟩ := alike.cases
  · exact .same _
  · cases dest with
    | object own base => exact alike.merge keyed
    | null | bool _ | int _ | float _ | text _ | array _ => exact .same _

/-! ### Objects kept in step -/

def AlikeOccurrences : Occurrences → Occurrences → Prop :=
  List.Forall₂ fun known other => known.1 = other.1 ∧ Alike known.2 other.2

theorem AlikeOccurrences.refl (known : Occurrences) : AlikeOccurrences known known :=
  List.forall₂_same.mpr fun _ _ => ⟨rfl, .same _⟩

theorem AlikeOccurrences.current? {known known' : Occurrences} (alike : AlikeOccurrences known known')
    (mark : Option Nat) : Option.Rel Alike (current? known mark) (current? known' mark) := by
  cases mark with
  | none => exact .none
  | some mark =>
      unfold Value.current?
      dsimp only
      induction alike with
      | nil => exact .none
      | @cons one two _ _ first _ ih =>
          rw [List.find?_cons, List.find?_cons, first.1]
          cases two.1 == mark with
          | true => exact .some first.2
          | false => exact ih

mutual
theorem alike_refresh {known known' : Occurrences} (alike : AlikeOccurrences known known') :
    (value : Value) → Keyed value → Alike (value.refresh known) (value.refresh known')
  | .object mark fields, keyed => by
      rw [Keyed] at keyed
      rw [refresh, refresh]
      have here := alike.current? mark
      generalize current? known mark = one, current? known' mark = two at here
      cases here with
      | some alike => exact alike
      | none => exact alike_object_iff.mpr ⟨rfl, alikeFields_refresh alike fields keyed.1 keyed.2⟩
  | .null, _ | .bool _, _ | .int _, _ | .float _, _ | .text _, _ | .array _, _ => by
      simp only [refresh]
      exact .same _
theorem alikeFields_refresh {known known' : Occurrences} (alike : AlikeOccurrences known known') :
    (fields : List (Text × Value)) → Entries.Distinct fields → KeyedFields fields →
      AlikeFields (refreshFields known fields) (refreshFields known' fields)
  | [], _, _ => .same _
  | (key, value) :: rest, distinct, keyed => by
      rw [KeyedFields] at keyed
      obtain ⟨fresh, others⟩ := List.nodup_cons.mp distinct
      have whole (known : Occurrences) : Entries.Distinct (refreshFields known ((key, value) :: rest)) := by
        rwa [Entries.Distinct, keys_refreshFields]
      refine alikeFields_of_get? (whole known) (whole known') fun name => ?_
      rw [refreshFields, refreshFields, Entries.get?_cons, Entries.get?_cons]
      by_cases same : key = name
      · rw [if_pos same, if_pos same]
        exact .some (alike_refresh alike value keyed.1)
      · rw [if_neg same, if_neg same]
        exact (alikeFields_refresh alike rest others keyed.2).get? name
end

/-- Values alike kept in step with objects alike are alike. -/
theorem Alike.refresh {known known' : Occurrences} (occurrences : AlikeOccurrences known known')
    (alike : Alike value other) (keyed : Keyed value) : Alike (value.refresh known) (other.refresh known') := by
  induction alike with
  | same => exact alike_refresh occurrences _ keyed
  | @object mark fields others distinct distinct' keys each ih =>
      have whole : AlikeFields fields others := record (.object distinct distinct' keys each)
      have inside := keyed_object.mp keyed
      rw [Value.refresh, Value.refresh]
      have here := occurrences.current? mark
      generalize current? known mark = one, current? known' mark = two at here
      cases here with
      | some alike => exact alike
      | none =>
          refine alike_object_iff.mpr ⟨rfl, alikeFields_of_get? ?_ ?_ fun key => ?_⟩
          · rwa [Entries.Distinct, keys_refreshFields]
          · rwa [Entries.Distinct, keys_refreshFields]
          · rw [get?_refreshFields, get?_refreshFields]
            have told := whole.get? key
            generalize found : Entries.get? key fields = first, held : Entries.get? key others = second at told ⊢
            cases told with
            | none => exact .none
            | some _ => exact .some (ih key _ _ found held (inside.of_get? found))

/-! ### Entries in another order -/

inductive Reordered : Value → Value → Prop where
  | same (value : Value) : Reordered value value
  | object {mark : Option Nat} {fields others : Fields} (perm : fields.Perm others) :
      Reordered (.object mark fields) (.object mark others)

namespace Reordered

theorem symm (reordered : Reordered value other) : Reordered other value := by
  cases reordered with
  | same => exact .same value
  | object perm => exact .object perm.symm

theorem inner (reordered : Reordered value other) : value.inner.Perm other.inner := by
  cases reordered with
  | same => exact .rfl
  | object perm => exact perm

theorem asFields (reordered : Reordered value other) {fields : Fields} (opened : value.asFields = .ok fields) :
    ∃ others, other.asFields = .ok others ∧ fields.Perm others := by
  cases reordered with
  | same => exact ⟨fields, opened, .rfl⟩
  | object perm =>
      cases opened
      exact ⟨_, rfl, perm⟩

theorem get?_inner (reordered : Reordered value other) (distinct : Entries.Distinct value.inner) (key : Text) :
    Entries.get? key other.inner = Entries.get? key value.inner :=
  Entries.get?_of_perm distinct reordered.inner.symm key

theorem member_eq (reordered : Reordered value other) (distinct : Entries.Distinct value.inner) (asked : Value) :
    asked.member other = asked.member value := by
  have found := reordered.get?_inner distinct
  cases reordered with
  | same => rfl
  | object perm =>
      cases asked with
      | text key => exact congrArg (fun held : Option Value => Except.ok held.isSome) (found key)
      | null | bool _ | int _ | float _ | array _ | object _ _ => rfl

end Reordered

theorem alikeFields_of_perm (distinct : Entries.Distinct fields) (perm : fields.Perm others) :
    AlikeFields fields others := by
  refine alikeFields_of_get? distinct ((perm.map Prod.fst).nodup_iff.mp distinct) fun key => ?_
  rw [Entries.get?_of_perm distinct perm.symm key]
  exact (AlikeFields.refl fields).get? key

/-! ### Spelling -/

end Value

end EventSchema
