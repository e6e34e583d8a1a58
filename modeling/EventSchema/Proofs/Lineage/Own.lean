import EventSchema.Proofs.Lineage.Walk

/-!
What a flattened item has from its own definition.

A field that an item gives itself is the one that its flattened form has, whatever the parent gives:
only attributes, profiles and observables are joined. An item that extends nothing keeps all of its
fields.
-/

set_option autoImplicit false

namespace EventSchema.Lineage

variable {kind : ItemKind} {items : Fields} {key field : Text}

theorem get?_standalone {key field : Text} {item flat : Fields}
    (alone : standalone key item = .ok flat) (other : field ≠ "attributes") :
    Entries.get? field flat = Entries.get? field item := by
  unfold standalone at alone
  obtain ⟨attributes, _, same⟩ := bind_eq_ok.mp alone
  rw [← pure_eq_ok.mp same, Entries.get?_put, if_neg other]

def joinedKeys : List Text := ["attributes", "profiles", "observables"]

private theorem get?_takeField {parent taken after : Fields} {name : Text} {value : Value}
    (ran : takeField parent taken name value = .ok after) (single : field ∉ joinedKeys) :
    Entries.get? field after = if field = name then some value else Entries.get? field taken := by
  simp only [joinedKeys, List.mem_cons, List.not_mem_nil, or_false, not_or] at single
  obtain ⟨noAttributes, noProfiles, noObservables⟩ := single
  unfold takeField at ran
  split at ran
  · rename_i attributes
    rw [← Except.ok.inj ran, if_neg (attributes ▸ noAttributes)]
  · split at ran
    · rename_i profiles
      obtain ⟨_, _, ran⟩ := bind_eq_ok.mp ran
      rw [← pure_eq_ok.mp ran, Entries.get?_put_of_ne (Ne.symm noProfiles),
        if_neg (profiles ▸ noProfiles)]
    · split at ran
      · rename_i observables
        rw [if_neg (observables ▸ noObservables)]
        split at ran
        · split at ran
          · rw [← Except.ok.inj ran, Entries.get?_put_of_ne (Ne.symm noObservables)]
          · rw [← Except.ok.inj ran]
        · rw [← Except.ok.inj ran, observables, Entries.get?_put_of_ne (Ne.symm noObservables)]
      · rw [← Except.ok.inj ran, Entries.get?_put]

private theorem get?_takeFields {parent start taken item : Fields} (distinct : Entries.Distinct item)
    (ran : item.foldlM (fun taken entry => takeField parent taken entry.1 entry.2) start = .ok taken)
    (single : field ∉ joinedKeys) :
    Entries.get? field taken = (Entries.get? field item).or (Entries.get? field start) := by
  induction item generalizing start with
  | nil => rw [← pure_eq_ok.mp ran, Entries.get?_nil, Option.none_or]
  | cons head rest ih =>
      obtain ⟨fresh, others⟩ := List.nodup_cons.mp distinct
      rw [List.foldlM_cons] at ran
      obtain ⟨middle, first, later⟩ := bind_eq_ok.mp ran
      rw [ih others later, get?_takeField first single, Entries.get?_cons]
      by_cases same : head.1 = field
      · have absent : Entries.get? field rest = none := Entries.get?_eq_none_iff.mpr (same ▸ fresh)
        rw [absent, if_pos same, if_pos same.symm]
        rfl
      · rw [if_neg same, if_neg (Ne.symm same)]

theorem get?_descend {parent item flat : Fields} (distinct : Entries.Distinct item)
    (ran : descend kind key parent item = .ok flat) (single : field ∉ joinedKeys)
    (other : field ≠ "observable_inherited?") :
    Entries.get? field flat = (Entries.get? field item).or
      (if field ∈ ownKeys then none else Entries.get? field parent) := by
  have attributes : field ≠ "attributes" := fun same => single (same ▸ List.mem_cons_self ..)
  unfold descend at ran
  dsimp only at ran
  obtain ⟨taken, taking, ran⟩ := bind_eq_ok.mp ran
  obtain ⟨own, read, ran⟩ := bind_eq_ok.mp ran
  obtain ⟨overridden, _, ran⟩ := bind_eq_ok.mp ran
  obtain ⟨fields, _, ran⟩ := bind_eq_ok.mp ran
  have whole : Entries.get? field (Entries.put "attributes" (.record (kept fields)) taken) =
      (Entries.get? field item).or (if field ∈ ownKeys then none else Entries.get? field parent) := by
    rw [Entries.get?_put_of_ne (Ne.symm attributes), get?_takeFields distinct taking single,
      Entries.get?_erase, if_neg attributes, Entries.get?_foldl_erase]
  have flagged (flag : Bool) := Entries.get?_put_of_ne (Ne.symm other) (.bool flag)
    (Entries.put "attributes" (.record (kept fields)) taken)
  cases kind with
  | object =>
      dsimp only at ran
      split at ran
      · rw [← pure_eq_ok.mp ran, flagged, whole]
      · split at ran
        · rw [← pure_eq_ok.mp ran, flagged, whole]
        · rw [← pure_eq_ok.mp ran, whole]
  | eventClass | profile => rw [← pure_eq_ok.mp ran, whole]

/-- A field that an item gives itself is the one that it has in the end. -/
theorem Flat.get?_own {mark : Option Nat} {item flat : Fields} {value : Value}
    (computed : Flat kind items key flat) (found : Entries.get? key items = some (.object mark item))
    (distinct : Entries.Distinct item) (single : field ∉ joinedKeys)
    (other : field ≠ "observable_inherited?") (unmarked : field ≠ "_resolved")
    (given : Entries.get? field item = some value) : Entries.get? field flat = some value := by
  have attributes : field ≠ "attributes" := fun same => single (same ▸ List.mem_cons_self ..)
  obtain ⟨own, above, line, inherited⟩ := computed
  cases line with
  | root found' start =>
      cases found.symm.trans found'
      rw [inherit] at inherited
      split at inherited
      · exact Except.ok.inj inherited ▸ given
      · split at inherited
        · exact (get?_standalone inherited attributes).trans given
        · obtain ⟨alone, ran, same⟩ := map_eq_ok.mp inherited
          rw [← same, resolved, Entries.get?_put_of_ne (Ne.symm unmarked),
            get?_standalone ran attributes, given]
  | child found' fresh next older =>
      cases found.symm.trans found'
      rw [inherit] at inherited
      obtain ⟨ancestor, _, inherited⟩ := bind_eq_ok.mp inherited
      obtain ⟨below, ran, same⟩ := map_eq_ok.mp inherited
      rw [← same, resolved, Entries.get?_put_of_ne (Ne.symm unmarked),
        get?_descend distinct ran single other, given, Option.some_or]

theorem Flat.get?_below {mark : Option Nat} {item flat ancestor : Fields} {parent : Text}
    (computed : Flat kind items key flat) (above : Flat kind items parent ancestor)
    (found : Entries.get? key items = some (.object mark item))
    (fresh : Value.given (Entries.get? "_resolved" item) = false)
    (next : findParent items key (.object mark item) = .ok (some parent))
    (distinct : Entries.Distinct item) (single : field ∉ joinedKeys) (inherited : field ∉ ownKeys)
    (other : field ≠ "observable_inherited?") (unmarked : field ≠ "_resolved")
    (absent : Entries.get? field item = none) : Entries.get? field flat = Entries.get? field ancestor := by
  obtain ⟨own, line, ancestry, whole⟩ := computed
  cases ancestry with
  | root found' first =>
      cases found.symm.trans found'
      rcases first with resolved | orphan
      · rw [fresh] at resolved
        cases resolved
      · cases next.symm.trans orphan
  | child found' fresh' next' older =>
      cases found.symm.trans found'
      cases next.symm.trans next'
      rw [inherit] at whole
      obtain ⟨before, inheriting, whole⟩ := bind_eq_ok.mp whole
      obtain ⟨below, ran, same⟩ := map_eq_ok.mp whole
      obtain rfl : ancestor = before := above.unique ⟨_, _, older, inheriting⟩
      rw [← same, resolved, Entries.get?_put_of_ne (Ne.symm unmarked), get?_descend distinct ran single other,
        absent, Option.none_or, if_neg inherited]

/-- Where an item comes from is told by its own definition, whatever its parent is. -/
theorem Flat.get?_ownKey {mark : Option Nat} {item flat : Fields}
    (computed : Flat kind items key flat) (found : Entries.get? key items = some (.object mark item))
    (distinct : Entries.Distinct item) (own : field ∈ ownKeys) :
    Entries.get? field flat = Entries.get? field item := by
  have apart : ∀ field ∈ ownKeys, field ∉ joinedKeys ∧ field ≠ "observable_inherited?" ∧
      field ≠ "_resolved" ∧ field ≠ "attributes" := by decide
  obtain ⟨single, other, unmarked, noAttributes⟩ := apart field own
  obtain ⟨front, above, line, inherited⟩ := computed
  cases line with
  | root found' start =>
      cases found.symm.trans found'
      rw [inherit] at inherited
      split at inherited
      · rw [← Except.ok.inj inherited]
      · split at inherited
        · exact get?_standalone inherited noAttributes
        · obtain ⟨alone, ran, same⟩ := map_eq_ok.mp inherited
          rw [← same, resolved, Entries.get?_put_of_ne (Ne.symm unmarked), get?_standalone ran noAttributes]
  | child found' fresh next older =>
      cases found.symm.trans found'
      rw [inherit] at inherited
      obtain ⟨ancestor, _, inherited⟩ := bind_eq_ok.mp inherited
      obtain ⟨below, ran, same⟩ := map_eq_ok.mp inherited
      rw [← same, resolved, Entries.get?_put_of_ne (Ne.symm unmarked),
        get?_descend distinct ran single other, if_pos own, Option.or_none]

/-- An item that extends nothing keeps every field beside its attributes. -/
theorem Flat.get?_alone {mark : Option Nat} {item flat : Fields}
    (computed : Flat kind items key flat) (found : Entries.get? key items = some (.object mark item))
    (alone : Value.given (Entries.get? "extends" item) = false) (other : field ≠ "attributes") :
    Entries.get? field flat = Entries.get? field item := by
  obtain ⟨own, above, line, inherited⟩ := computed
  cases line with
  | root found' start =>
      cases found.symm.trans found'
      rw [inherit] at inherited
      split at inherited
      · rw [← Except.ok.inj inherited]
      · rw [alone, Bool.not_false, if_pos rfl] at inherited
        exact get?_standalone inherited other
  | child found' fresh next older =>
      cases found.symm.trans found'
      rw [findParent_of_not_given items key _ (by rw [alone]; rfl)] at next
      cases next

/-- A field that is not joined comes from the definition of the item or of one above it. -/
theorem Flat.exists_raw {flat : Fields} {value : Value}
    (distinct : ∀ key mark item, Entries.get? key items = some (.object mark item) → Entries.Distinct item)
    (computed : Flat kind items key flat) (single : field ∉ joinedKeys) (other : field ≠ "observable_inherited?")
    (unmarked : field ≠ "_resolved") (told : Entries.get? field flat = some value) :
    ∃ name mark item, Entries.get? name items = some (.object mark item) ∧ Entries.get? field item = some value := by
  have attributes : field ≠ "attributes" := fun same => single (same ▸ List.mem_cons_self ..)
  obtain ⟨item, above, line, inherited⟩ := computed
  generalize shape : (key, item) :: above = whole at line
  induction line generalizing key item above flat with
  | @root own mark fields found start =>
      cases shape
      refine ⟨own, mark, fields, found, ?_⟩
      rw [inherit] at inherited
      split at inherited
      · exact Except.ok.inj inherited ▸ told
      · split at inherited
        · exact (get?_standalone inherited attributes) ▸ told
        · obtain ⟨alone, ran, same⟩ := map_eq_ok.mp inherited
          rwa [← same, resolved, Entries.get?_put_of_ne (Ne.symm unmarked), get?_standalone ran attributes] at told
  | @child own mark fields parent elders found fresh next older ih =>
      cases shape
      rw [inherit] at inherited
      obtain ⟨ancestor, computed, rest⟩ := bind_eq_ok.mp inherited
      obtain ⟨taken, ran, same⟩ := map_eq_ok.mp rest
      rw [← same, resolved, Entries.get?_put_of_ne (Ne.symm unmarked),
        get?_descend (distinct own mark fields found) ran single other] at told
      rcases Option.or_eq_some_iff.mp told with given | ⟨_, above⟩
      · exact ⟨own, mark, fields, found, given⟩
      · split at above
        · cases above
        · exact ih above _ _ computed rfl

end EventSchema.Lineage
