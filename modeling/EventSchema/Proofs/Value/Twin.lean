import EventSchema.Proofs.Value.Independent

/-!
Values that differ only in how their shared objects are marked.

A mark tells which places hold one object, so a document may be marked in many ways. Two values are twins
if they have the same content, and a mark of one stands wherever one mark of the other does. Merging and
keeping shared objects in step take twins to twins.
-/

set_option autoImplicit false

namespace EventSchema.Value

variable {r : Nat → Nat → Prop}

mutual
def Twin (r : Nat → Nat → Prop) : Value → Value → Prop
  | object mark fields, other => ∃ mark' others, other = object mark' others ∧ Option.Rel r mark mark' ∧
      TwinFields r fields others
  | value, other => other = value
def TwinFields (r : Nat → Nat → Prop) : List (Text × Value) → List (Text × Value) → Prop
  | [], others => others = []
  | (key, value) :: rest, others => ∃ value' rest', others = (key, value') :: rest' ∧ Twin r value value' ∧
      TwinFields r rest rest'
end

theorem twin_object {mark mark' : Option Nat} {fields others : Fields} :
    Twin r (.object mark fields) (.object mark' others) ↔ Option.Rel r mark mark' ∧ TwinFields r fields others := by
  rw [Twin]
  constructor
  · rintro ⟨_, _, same, marks, each⟩
    cases same
    exact ⟨marks, each⟩
  · rintro ⟨marks, each⟩
    exact ⟨mark', others, rfl, marks, each⟩

theorem twin_of_leaf {value other : Value} (leaf : value.isObject = false) : Twin r value other ↔ other = value := by
  cases value with
  | object mark fields => cases leaf
  | null | bool _ | int _ | float _ | text _ | array _ => rw [Twin]; simp

theorem twinFields_nil : TwinFields r [] [] := by rw [TwinFields]

theorem twinFields_cons {key : Text} {value value' : Value} {rest rest' : Fields} :
    TwinFields r ((key, value) :: rest) ((key, value') :: rest') ↔ Twin r value value' ∧ TwinFields r rest rest' := by
  rw [TwinFields]
  constructor
  · rintro ⟨_, _, same, head, others⟩
    cases same
    exact ⟨head, others⟩
  · rintro ⟨head, others⟩
    exact ⟨value', rest', rfl, head, others⟩

theorem twinFields_iff {fields others : Fields} :
    TwinFields r fields others ↔ Entries.Related (fun _ => Twin r) fields others := by
  unfold Entries.Related
  induction fields generalizing others with
  | nil => rw [TwinFields, List.forall₂_nil_left_iff]
  | cons head rest ih =>
      rw [TwinFields, List.forall₂_cons_left_iff]
      constructor
      · rintro ⟨value', rest', rfl, first, each⟩
        exact ⟨(head.1, value'), rest', ⟨rfl, first⟩, ih.mp each, rfl⟩
      · rintro ⟨⟨_, value'⟩, rest', ⟨rfl, first⟩, each, rfl⟩
        exact ⟨value', rest', rfl, first, ih.mpr each⟩

theorem Twin.cases {value other : Value} (twin : Twin r value other) :
    (∃ mark mark' fields others, value = .object mark fields ∧ other = .object mark' others ∧
      Option.Rel r mark mark' ∧ TwinFields r fields others) ∨ value.isObject = false ∧ other = value := by
  cases value with
  | object mark fields =>
      rw [Twin] at twin
      obtain ⟨mark', others, rfl, marks, each⟩ := twin
      exact Or.inl ⟨mark, mark', fields, others, rfl, rfl, marks, each⟩
  | null | bool _ | int _ | float _ | text _ | array _ => exact Or.inr ⟨rfl, (twin_of_leaf rfl).mp twin⟩

theorem TwinFields.get? {fields others : Fields} (twins : TwinFields r fields others) (key : Text) :
    Option.Rel (Twin r) (Entries.get? key fields) (Entries.get? key others) := by
  induction fields generalizing others with
  | nil =>
      rw [TwinFields] at twins
      subst twins
      exact .none
  | cons head rest ih =>
      rw [TwinFields] at twins
      obtain ⟨value', rest', rfl, first, each⟩ := twins
      rw [Entries.get?_cons, Entries.get?_cons]
      by_cases same : head.1 = key
      · rw [if_pos same, if_pos same]
        exact .some first
      · rw [if_neg same, if_neg same]
        exact ih each

theorem TwinFields.put {fields others : Fields} (twins : TwinFields r fields others) {value value' : Value}
    (twin : Twin r value value') (key : Text) :
    TwinFields r (Entries.put key value fields) (Entries.put key value' others) :=
  twinFields_iff.mpr ((twinFields_iff.mp twins).put twin)

/-! ### The content of twins -/

mutual
theorem Twin.unshared_eq : (value : Value) → {other : Value} → Twin r value other → other.unshared = value.unshared
  | .object mark fields, _, twin => by
      rw [Twin] at twin
      obtain ⟨_, _, rfl, _, each⟩ := twin
      rw [unshared, unshared, TwinFields.unshared_eq fields each]
  | .null, _, twin | .bool _, _, twin | .int _, _, twin | .float _, _, twin | .text _, _, twin
  | .array _, _, twin => by rw [(twin_of_leaf rfl).mp twin]
theorem TwinFields.unshared_eq : (fields : List (Text × Value)) → {others : List (Text × Value)} →
    TwinFields r fields others → unsharedFields others = unsharedFields fields
  | [], _, twins => by
      rw [TwinFields] at twins
      rw [twins]
  | (key, value) :: rest, _, twins => by
      rw [TwinFields] at twins
      obtain ⟨_, _, rfl, first, each⟩ := twins
      rw [unsharedFields, unsharedFields, Twin.unshared_eq value first, TwinFields.unshared_eq rest each]
end

mutual
/-- It is enough that the marks that occur are related. -/
theorem Twin.mono {weaker : Nat → Nat → Prop} {s s' : Nat → Prop} (implied : ∀ a b, r a b → s a → s' b → weaker a b) :
    (value : Value) → {other : Value} → Twin r value other → Marked s value → Marked s' other →
      Twin weaker value other
  | .object mark fields, _, twin, marked, marked' => by
      rw [Twin] at twin
      obtain ⟨mark', others, rfl, marks, each⟩ := twin
      obtain ⟨own, inside⟩ := marked_object.mp marked
      obtain ⟨own', inside'⟩ := marked_object.mp marked'
      refine twin_object.mpr ⟨?_, TwinFields.mono implied fields each inside inside'⟩
      cases marks with
      | none => exact .none
      | some related => exact .some (implied _ _ related (own _ rfl) (own' _ rfl))
  | .null, _, twin, _, _ | .bool _, _, twin, _, _ | .int _, _, twin, _, _ | .float _, _, twin, _, _
  | .text _, _, twin, _, _ | .array _, _, twin, _, _ => (twin_of_leaf rfl).mpr ((twin_of_leaf rfl).mp twin)
theorem TwinFields.mono {weaker : Nat → Nat → Prop} {s s' : Nat → Prop}
    (implied : ∀ a b, r a b → s a → s' b → weaker a b) :
    (fields : List (Text × Value)) → {others : List (Text × Value)} → TwinFields r fields others →
      MarkedFields s fields → MarkedFields s' others → TwinFields weaker fields others
  | [], _, twins, _, _ => by
      rw [TwinFields] at twins ⊢
      exact twins
  | (key, value) :: rest, _, twins, marked, marked' => by
      rw [TwinFields] at twins
      obtain ⟨value', rest', rfl, first, each⟩ := twins
      have split := markedFields_cons.mp marked
      have split' := markedFields_cons.mp marked'
      exact twinFields_cons.mpr ⟨Twin.mono implied value first split.1 split'.1,
        TwinFields.mono implied rest each split.2 split'.2⟩
end

/-! ### Marks moved apart -/

def Moved (amount amount' : Nat) (a b : Nat) : Prop := ∃ k, a = k + amount ∧ b = k + amount'

mutual
theorem twin_shift (amount amount' : Nat) :
    (value : Value) → Twin (Moved amount amount') (shift amount value) (shift amount' value)
  | .object mark fields => by
      rw [shift, shift]
      refine twin_object.mpr ⟨?_, twin_shiftFields amount amount' fields⟩
      cases mark with
      | none => exact .none
      | some k => exact .some ⟨k, rfl, rfl⟩
  | .null | .bool _ | .int _ | .float _ | .text _ | .array _ => by
      simp only [shift]
      exact (twin_of_leaf rfl).mpr rfl
theorem twin_shiftFields (amount amount' : Nat) : (fields : List (Text × Value)) →
    TwinFields (Moved amount amount') (shiftFields amount fields) (shiftFields amount' fields)
  | [] => by
      rw [shiftFields, shiftFields]
      exact twinFields_nil
  | (key, value) :: rest => by
      rw [shiftFields, shiftFields]
      exact twinFields_cons.mpr ⟨twin_shift amount amount' value, twin_shiftFields amount amount' rest⟩
end

/-! ### Merging twins -/

mutual
theorem Twin.merge : (dest source : Value) → {dest' source' : Value} → Twin r dest dest' → Twin r source source' →
    Twin r (dest.merge source) (dest'.merge source')
  | .object own fields, .object mark source, _, _, first, second => by
      rw [Twin] at first second
      obtain ⟨own', fields', rfl, marks, each⟩ := first
      obtain ⟨mark', source', rfl, _, given⟩ := second
      rw [merge_object, merge_object]
      exact twin_object.mpr ⟨marks, TwinFields.merge fields source each given⟩
  | .null, .object _ _, _, _, first, second | .bool _, .object _ _, _, _, first, second
  | .int _, .object _ _, _, _, first, second | .float _, .object _ _, _, _, first, second
  | .text _, .object _ _, _, _, first, second | .array _, .object _ _, _, _, first, second => by
      rw [(twin_of_leaf rfl).mp first, merge_apart (Or.inl rfl), merge_apart (Or.inl rfl)]
      exact second
  | _, .null, _, _, _, second | _, .bool _, _, _, _, second | _, .int _, _, _, _, second
  | _, .float _, _, _, _, second | _, .text _, _, _, _, second | _, .array _, _, _, _, second => by
      rw [(twin_of_leaf rfl).mp second, merge_apart (Or.inr rfl), merge_apart (Or.inr rfl)]
      exact (twin_of_leaf rfl).mpr rfl
theorem TwinFields.merge : (dest source : List (Text × Value)) → {dest' source' : List (Text × Value)} →
    TwinFields r dest dest' → TwinFields r source source' →
    TwinFields r (mergeFields dest source) (mergeFields dest' source')
  | dest, [], _, _, first, second => by
      rw [TwinFields] at second
      rw [second, mergeFields, mergeFields]
      exact first
  | dest, (key, value) :: rest, dest', _, first, second => by
      rw [TwinFields] at second
      obtain ⟨value', rest', rfl, given, each⟩ := second
      rw [mergeFields, mergeFields]
      refine TwinFields.merge _ rest (first.put ?_ key) each
      cases found : Entries.get? key dest with
      | none =>
          have absent := first.get? key
          rw [found] at absent
          cases absent' : Entries.get? key dest' with
          | none => exact given
          | some _ =>
              rw [absent'] at absent
              cases absent
      | some old =>
          have held := first.get? key
          rw [found] at held
          cases found' : Entries.get? key dest' with
          | none =>
              rw [found'] at held
              cases held
          | some old' =>
              rw [found'] at held
              cases held with
              | some before => exact Twin.merge old value before given
end

/-! ### Keeping twins in step -/

/-- Objects with related marks and twin contents, in the same order. -/
def TwinOccurrences (r : Nat → Nat → Prop) : Occurrences → Occurrences → Prop :=
  List.Forall₂ fun known known' => r known.1 known'.1 ∧ Twin r known.2 known'.2

mutual
theorem Twin.occurrences : (value : Value) → {other : Value} → Twin r value other →
    TwinOccurrences r (occurrences value) (occurrences other)
  | .object mark fields, _, twin => by
      rw [Twin] at twin
      obtain ⟨mark', others, rfl, marks, each⟩ := twin
      have inside := TwinFields.occurrences fields each
      cases marks with
      | none =>
          rw [Value.occurrences, Value.occurrences]
          exact inside
      | some related =>
          rw [Value.occurrences, Value.occurrences]
          exact .cons ⟨related, twin_object.mpr ⟨.some related, each⟩⟩ inside
  | .null, _, twin | .bool _, _, twin | .int _, _, twin | .float _, _, twin | .text _, _, twin
  | .array _, _, twin => by
      rw [(twin_of_leaf rfl).mp twin]
      simp only [Value.occurrences]
      exact .nil
theorem TwinFields.occurrences : (fields : List (Text × Value)) → {others : List (Text × Value)} →
    TwinFields r fields others → TwinOccurrences r (occurrencesFields fields) (occurrencesFields others)
  | [], _, twins => by
      rw [TwinFields] at twins
      rw [twins, occurrencesFields]
      exact .nil
  | (key, value) :: rest, _, twins => by
      rw [TwinFields] at twins
      obtain ⟨_, _, rfl, first, each⟩ := twins
      rw [occurrencesFields, occurrencesFields]
      exact List.rel_append (Twin.occurrences value first) (TwinFields.occurrences rest each)
end

theorem TwinOccurrences.current? (unique : Relator.BiUnique r) {known known' : Occurrences}
    (twins : TwinOccurrences r known known')
    {mark mark' : Option Nat} (marks : Option.Rel r mark mark') :
    Option.Rel (Twin r) (current? known mark) (current? known' mark') := by
  cases marks with
  | none => exact .none
  | @some m m' related =>
      induction twins with
      | nil => exact .none
      | @cons entry entry' rest rest' head _ ih =>
          have same : entry.1 = m ↔ entry'.1 = m' :=
            ⟨fun own => unique.2 (own ▸ head.1) related, fun own => unique.1 (own ▸ head.1) related⟩
          unfold Value.current? at ih ⊢
          dsimp only at ih ⊢
          by_cases own : entry.1 = m
          · rw [List.find?_cons_of_pos (by rw [own, beq_self_eq_true]),
              List.find?_cons_of_pos (by rw [same.mp own, beq_self_eq_true])]
            exact .some head.2
          · rw [List.find?_cons_of_neg (by rw [beq_iff_eq]; exact own),
              List.find?_cons_of_neg (by rw [beq_iff_eq]; exact fun also => own (same.mpr also))]
            exact ih

mutual
theorem Twin.refresh (unique : Relator.BiUnique r) {known known' : Occurrences}
    (twins : TwinOccurrences r known known') :
    (value : Value) → {other : Value} → Twin r value other → Twin r (refresh known value) (refresh known' other)
  | .object mark fields, _, twin => by
      rw [Twin] at twin
      obtain ⟨mark', others, rfl, marks, each⟩ := twin
      have present := twins.current? unique marks
      rw [Value.refresh, Value.refresh]
      cases found : Value.current? known mark with
      | none =>
          cases found' : Value.current? known' mark' with
          | none => exact twin_object.mpr ⟨marks, TwinFields.refresh unique twins fields each⟩
          | some _ =>
              rw [found, found'] at present
              cases present
      | some _ =>
          cases found' : Value.current? known' mark' with
          | none =>
              rw [found, found'] at present
              cases present
          | some _ =>
              rw [found, found'] at present
              cases present with
              | some held => exact held
  | .null, _, twin | .bool _, _, twin | .int _, _, twin | .float _, _, twin | .text _, _, twin
  | .array _, _, twin => by
      rw [(twin_of_leaf rfl).mp twin]
      simp only [Value.refresh]
      exact (twin_of_leaf rfl).mpr rfl
theorem TwinFields.refresh (unique : Relator.BiUnique r) {known known' : Occurrences}
    (twins : TwinOccurrences r known known') :
    (fields : List (Text × Value)) → {others : List (Text × Value)} → TwinFields r fields others →
    TwinFields r (refreshFields known fields) (refreshFields known' others)
  | [], _, each => by
      rw [TwinFields] at each
      rw [each, refreshFields, refreshFields]
      exact twinFields_nil
  | (key, value) :: rest, _, each => by
      rw [TwinFields] at each
      obtain ⟨_, _, rfl, first, others⟩ := each
      rw [refreshFields, refreshFields]
      exact twinFields_cons.mpr ⟨Twin.refresh unique twins value first, TwinFields.refresh unique twins rest others⟩
end

/-! ### Overlaying twins -/

section

variable (unique : Relator.BiUnique r)

include unique

variable {fields fields' later later' : Fields}

theorem TwinFields.overlayOne (whole : TwinFields r fields fields') (coming : TwinFields r later later') (key : Text)
    {value value' : Value} (twin : Twin r value value') :
    TwinFields r (overlayOne key value fields later).1 (overlayOne key value' fields' later').1 ∧
      TwinFields r (overlayOne key value fields later).2 (overlayOne key value' fields' later').2 := by
  have written := whole.put twin key
  have held := whole.get? key
  cases twin.cases with
  | inr leaf =>
      obtain ⟨simple, rfl⟩ := leaf
      have alone (fields later : Fields) : Value.overlayOne key value' fields later =
          (Entries.put key value' fields, later) := by
        unfold Value.overlayOne
        split
        · cases simple
        · rfl
      rw [alone, alone]
      exact ⟨written, coming⟩
  | inl objects =>
      obtain ⟨mark, mark', source, source', rfl, rfl, _, given⟩ := objects
      unfold Value.overlayOne
      cases found : Entries.get? key fields with
      | none =>
          cases found' : Entries.get? key fields' with
          | none => exact ⟨written, coming⟩
          | some _ =>
              rw [found, found'] at held
              cases held
      | some old =>
          cases found' : Entries.get? key fields' with
          | none =>
              rw [found, found'] at held
              cases held
          | some old' =>
              rw [found, found'] at held
              cases held with
              | some before =>
                  cases before.cases with
                  | inr leaf =>
                      obtain ⟨simple, rfl⟩ := leaf
                      cases old' with
                      | object _ _ => cases simple
                      | null | bool _ | int _ | float _ | text _ | array _ => exact ⟨written, coming⟩
                  | inl both =>
                      obtain ⟨own, own', base, base', rfl, rfl, _, _⟩ := both
                      have merged := Twin.merge _ _ before twin
                      have known := Twin.occurrences _ merged
                      exact ⟨TwinFields.refresh unique known _ (whole.put merged key),
                        TwinFields.refresh unique known _ coming⟩

theorem TwinFields.overlay (whole : TwinFields r fields fields') (coming : TwinFields r later later') :
    TwinFields r (overlay fields later) (overlay fields' later') := by
  induction fields, later using Value.overlay.induct generalizing fields' later' with
  | case1 fields =>
      rw [TwinFields] at coming
      rw [coming, Value.overlay, Value.overlay]
      exact whole
  | case2 fields key value later ih =>
      rw [TwinFields] at coming
      obtain ⟨value', rest', rfl, first, each⟩ := coming
      rw [Value.overlay, Value.overlay]
      obtain ⟨here, rest⟩ := whole.overlayOne unique each key first
      exact ih here rest

end

mutual
theorem twin_refl : (value : Value) → Twin Eq value value
  | .object mark fields => twin_object.mpr ⟨by cases mark <;> constructor; rfl, twinFields_refl fields⟩
  | .null | .bool _ | .int _ | .float _ | .text _ | .array _ => (twin_of_leaf rfl).mpr rfl
theorem twinFields_refl : (fields : List (Text × Value)) → TwinFields Eq fields fields
  | [] => twinFields_nil
  | (_, value) :: rest => twinFields_cons.mpr ⟨twin_refl value, twinFields_refl rest⟩
end

/-! ### Fields that are twins beside some names -/

def TwinBeside (names : List Text) (fields others : Fields) : Prop :=
  ∃ r, Relator.BiUnique r ∧ TwinFields r (Entries.beside names fields) (Entries.beside names others)

namespace TwinBeside

variable {names : List Text} {fields others source : Fields}

theorem refl (names : List Text) (fields : Fields) : TwinBeside names fields fields :=
  ⟨Eq, ⟨fun _ _ _ one two => one.trans two.symm, fun _ _ _ one two => one.symm.trans two⟩, twinFields_refl _⟩

theorem unshared_eq (twins : TwinBeside names fields others) :
    unsharedFields (Entries.beside names others) = unsharedFields (Entries.beside names fields) := by
  obtain ⟨_, _, each⟩ := twins
  exact TwinFields.unshared_eq _ each

theorem biUnique_moved {r : Nat → Nat → Prop} (unique : Relator.BiUnique r) (amount amount' : Nat) :
    Relator.BiUnique fun a b => r a b ∧ a < amount ∧ b < amount' ∨ Moved amount amount' a b := by
  constructor
  · rintro a b c (⟨one, _, below⟩ | ⟨k, rfl, rfl⟩) (⟨two, _, below'⟩ | ⟨l, rfl, same⟩)
    · exact unique.1 one two
    · omega
    · omega
    · omega
  · rintro a b c (⟨one, below, _⟩ | ⟨k, rfl, rfl⟩) (⟨two, below', _⟩ | ⟨l, same, rfl⟩)
    · exact unique.2 one two
    · omega
    · omega
    · omega

/-- The same fields laid over both, their marks moved above those that are there, leave twins. -/
theorem overlay (twins : TwinBeside names fields others) (apart : Independent names fields)
    (apart' : Independent names others) (given : Independent names source) {amount amount' : Nat}
    (below : MarkedFields (· < amount) fields) (below' : MarkedFields (· < amount') others) :
    TwinBeside names (overlay fields (shiftFields amount source)) (overlay others (shiftFields amount' source)) := by
  obtain ⟨r, unique, each⟩ := twins
  obtain ⟨_, split, moved⟩ := apart.exists_split below given
  obtain ⟨_, split', moved'⟩ := apart'.exists_split below' given
  refine ⟨_, biUnique_moved unique amount amount', ?_⟩
  rw [(split.overlay moved).2, (split'.overlay moved').2, beside_shiftFields, beside_shiftFields]
  refine TwinFields.overlay (biUnique_moved unique amount amount') ?_ ?_
  · exact TwinFields.mono (fun a b one lt lt' => Or.inl ⟨one, lt, lt'⟩) _ each below.beside below'.beside
  · have all (given : Fields) : MarkedFields (fun _ => True) given := fun _ _ => trivial
    exact TwinFields.mono (fun a b one _ _ => Or.inr one) _ (twin_shiftFields amount amount' _) (all _) (all _)

end TwinBeside

end EventSchema.Value
