import EventSchema.Proofs.Lineage.Walk
import EventSchema.Proofs.Value.Plain

/-!
What every flattened item has of its attributes.

A property of attributes that the items themselves have, and that survives an override and the
removal of null, holds of the attributes of every flattened item.
-/

set_option autoImplicit false

namespace EventSchema.Lineage

variable {kind : ItemKind} {items : Fields} {holds : Fields → Prop}

/-- A property of attributes that flattening carries from the items to their flat forms. -/
structure Hereditary (items : Fields) (holds : Fields → Prop) : Prop where
  empty : holds []
  own : ∀ key mark item, Entries.get? key items = some (.object mark item) →
    Value.given (Entries.get? "_resolved" item) = true → holds (Entries.attributes item)
  root : ∀ key mark item, Entries.get? key items = some (.object mark item) →
    holds (Entries.mapValues (sourced key) (kept (Entries.attributes item)))
  step : ∀ key mark item, Entries.get? key items = some (.object mark item) →
    ∀ entry ∈ Entries.attributes item, ∀ own fields after, holds fields →
      override key (.object own fields) entry.1 entry.2 = .ok after →
      ∃ overridden, after = .record overridden ∧ holds overridden
  kept : ∀ attributes, holds attributes → holds (kept attributes)

theorem fieldsOrNone_of_objects {fields : Fields} {key : Text}
    (objects : ∀ value, Entries.get? key fields = some value → value.isObject = true) :
    ∃ inner, Value.fieldsOrNone (Entries.get? key fields) = .ok inner := by
  cases found : Entries.get? key fields with
  | none => exact ⟨[], rfl⟩
  | some value =>
      have object := objects value found
      cases value with
      | object mark inner => cases inner <;> exact ⟨_, rfl⟩
      | null | bool _ | int _ | float _ | text _ | array _ => cases object

theorem attributes_of_fieldsOrNone {item attributes : Fields}
    (read : Value.fieldsOrNone (Entries.get? "attributes" item) = .ok attributes) :
    Entries.attributes item = attributes := by
  unfold Entries.attributes
  cases found : Entries.get? "attributes" item with
  | none =>
      rw [found] at read
      exact Except.ok.inj read
  | some value =>
      rw [found] at read
      cases value with
      | object mark fields =>
          cases fields with
          | nil => exact Except.ok.inj read
          | cons head rest => exact Except.ok.inj read
      | null | bool _ | int _ | float _ | text _ | array _ =>
          unfold Value.fieldsOrNone at read
          dsimp only at read
          split at read
          · cases read
          · exact Except.ok.inj read

theorem attributes_of_standalone {key : Text} {item flat : Fields} (ran : standalone key item = .ok flat) :
    Entries.attributes flat = Entries.mapValues (sourced key) (kept (Entries.attributes item)) := by
  unfold standalone at ran
  obtain ⟨attributes, read, ran⟩ := bind_eq_ok.mp ran
  rw [← pure_eq_ok.mp ran, Value.record, Entries.attributes_put, ← attributes_of_fieldsOrNone read]

theorem attributes_of_descend {key : Text} {item parent flat : Fields}
    (ran : descend kind key parent item = .ok flat) :
    ∃ mark last overridden, (Entries.attributes item).foldlM
        (fun inherited entry => override key inherited entry.1 entry.2)
        (.object mark (Entries.attributes parent)) = .ok (.object last overridden) ∧
      Entries.attributes flat = kept overridden := by
  unfold descend at ran
  obtain ⟨taken, _, ran⟩ := bind_eq_ok.mp ran
  obtain ⟨own, read, ran⟩ := bind_eq_ok.mp ran
  obtain ⟨attributes, overrides, ran⟩ := bind_eq_ok.mp ran
  obtain ⟨fields, opened, ran⟩ := bind_eq_ok.mp ran
  obtain ⟨last, rfl⟩ := Value.inner_of_asFields opened
  rw [Entries.get?_foldl_erase, if_neg (by decide)] at overrides
  -- what is overridden is an object: nothing else can be overridden or kept
  have started : ∃ mark, Value.orElse (Entries.get? "attributes" parent) (.record []) =
      .object mark (Entries.attributes parent) := by
    obtain ⟨mark, inherited, object⟩ : ∃ mark inherited,
        Value.orElse (Entries.get? "attributes" parent) (.record []) = .object mark inherited := by
      cases own with
      | nil => exact ⟨last, fields, pure_eq_ok.mp overrides⟩
      | cons head rest =>
          rw [List.foldlM_cons] at overrides
          obtain ⟨_, first, _⟩ := bind_eq_ok.mp overrides
          obtain ⟨inherited, opened, _⟩ := bind_eq_ok.mp first
          obtain ⟨mark, same⟩ := Value.inner_of_asFields opened
          exact ⟨mark, inherited, same⟩
    refine ⟨mark, ?_⟩
    rw [object, Entries.attributes]
    unfold Value.orElse at object
    cases held : Entries.get? "attributes" parent with
    | none =>
        rw [held] at object
        cases object
        rfl
    | some value =>
        rw [held] at object
        dsimp only at object
        split at object
        · rw [object]
        · rename_i empty
          cases object
          cases value with
          | object mark fields =>
              cases fields with
              | nil => rfl
              | cons head rest => exact absurd rfl empty
          | null | bool _ | int _ | float _ | text _ | array _ => rfl
  obtain ⟨mark, started⟩ := started
  rw [started, ← attributes_of_fieldsOrNone read] at overrides
  refine ⟨mark, last, fields, overrides, ?_⟩
  have shown (flag : Bool) : Entries.attributes (Entries.put "observable_inherited?" (.bool flag)
      (Entries.put "attributes" (.record (Lineage.kept fields)) taken)) = Lineage.kept fields := by
    rw [Entries.attributes_put_of_ne (by decide), Value.record, Entries.attributes_put]
  dsimp only at ran
  cases kind with
  | object =>
      dsimp only at ran
      split at ran
      · rw [← pure_eq_ok.mp ran, shown]
      · split at ran
        · rw [← pure_eq_ok.mp ran, shown]
        · rw [← pure_eq_ok.mp ran, Value.record, Entries.attributes_put]
  | eventClass | profile => rw [← pure_eq_ok.mp ran, Value.record, Entries.attributes_put]

theorem Hereditary.standalone (hereditary : Hereditary items holds) {key : Text} {mark : Option Nat}
    {item flat : Fields} (found : Entries.get? key items = some (.object mark item))
    (ran : standalone key item = .ok flat) : holds (Entries.attributes flat) := by
  rw [attributes_of_standalone ran]
  exact hereditary.root key mark item found

theorem Hereditary.overrides (hereditary : Hereditary items holds) {key : Text} {mark : Option Nat}
    {item inherited overridden : Fields} {own last : Option Nat}
    (found : Entries.get? key items = some (.object mark item)) (before : holds inherited)
    (ran : (Entries.attributes item).foldlM
      (fun inherited entry => override key inherited entry.1 entry.2) (.object own inherited) =
        .ok (.object last overridden)) : holds overridden := by
  have whole : ∀ mark fields, Value.object last overridden = .object mark fields → holds fields := by
    refine foldlM_invariant (motive := fun state => ∀ mark fields, state = .object mark fields →
      holds fields) ran ?_ ?_
    · rintro _ _ ⟨⟩
      exact before
    · intro state entry next member held stepped mark' fields shape
      cases state with
      | object mark' inherited =>
          obtain ⟨after, same, holdsAfter⟩ := hereditary.step key mark item found entry member
            mark' inherited next (held _ _ rfl) stepped
          rw [same] at shape
          cases shape
          exact holdsAfter
      | null | bool _ | int _ | float _ | text _ | array _ => cases stepped
  exact whole _ _ rfl

theorem Hereditary.descend (hereditary : Hereditary items holds) {key : Text} {mark : Option Nat}
    {item parent flat : Fields} (found : Entries.get? key items = some (.object mark item))
    (inherited : holds (Entries.attributes parent))
    (ran : descend kind key parent item = .ok flat) : holds (Entries.attributes flat) := by
  obtain ⟨_, _, overridden, overrides, same⟩ := attributes_of_descend ran
  exact same ▸ hereditary.kept overridden (hereditary.overrides found inherited overrides)

theorem Hereditary.flat (hereditary : Hereditary items holds) {key : Text} {flat : Fields}
    (computed : Flat kind items key flat) : holds (Entries.attributes flat) := by
  obtain ⟨item, above, line, inherited⟩ := computed
  generalize shape : (key, item) :: above = whole at line
  induction line generalizing key item above flat with
  | @root own mark fields found start =>
      cases shape
      rw [inherit] at inherited
      split at inherited
      · rename_i resolved
        exact Except.ok.inj inherited ▸ hereditary.own own mark fields found resolved
      · split at inherited
        · exact hereditary.standalone found inherited
        · obtain ⟨alone, ran, same⟩ := map_eq_ok.mp inherited
          rw [← same, resolved, Entries.attributes_put_of_ne (by decide)]
          exact hereditary.standalone found ran
  | @child own mark fields parent elders found fresh next older ih =>
      cases shape
      rw [inherit] at inherited
      obtain ⟨ancestor, computed, rest⟩ := bind_eq_ok.mp inherited
      obtain ⟨taken, ran, same⟩ := map_eq_ok.mp rest
      rw [← same, resolved, Entries.attributes_put_of_ne (by decide)]
      exact hereditary.descend found (ih _ _ computed rfl) ran

/-- The fields of an attribute written over inherited ones: the merged fields, with the inherited source
if one is named. -/
structure WrittenOver (base declared written : Fields) : Prop where
  distinct : Entries.Distinct base → Entries.Distinct written
  source : ∀ source, Entries.get? "_source" base = some source → source.isNull = false →
    Entries.get? "_source" written = some source
  merged : ∀ field : Text, field ≠ "_source" → Entries.get? field written =
    Entries.get? field (Value.mergeFields base (Value.unsharedFields declared))

/-- What an override writes: an object over an inherited one, and the attribute itself otherwise. -/
theorem override_cases {key name : Text} {mark : Option Nat} {fields : Fields} {value after : Value}
    (ran : override key (.object mark fields) name value = .ok after) :
    (∃ inner base own declared written, Entries.get? name fields = some (.object inner base) ∧
      value = .object own declared ∧
      after = .record (Value.putShared name (.object inner written) fields) ∧
      WrittenOver base declared written) ∨
    (value.isObject = true ∧ (∀ before, Entries.get? name fields = some before →
        before.isObject = false) ∧
      after = .record (Entries.put name (sourced key value.unshared) fields)) ∨
    (value.isObject = false ∧ after = .record (Entries.put name value fields)) := by
  unfold override at ran
  simp only [Value.asFields, ok_bind] at ran
  cases value with
  | object own declared =>
      cases known : Entries.get? name fields with
      | none =>
          rw [known] at ran
          refine Or.inr (Or.inl ⟨rfl, fun before given => ?_, (pure_eq_ok.mp ran).symm⟩)
          cases given
      | some before =>
          rw [known] at ran
          cases before with
          | object inner base =>
              left
              have unshared : (Value.object own declared).unshared =
                  .object none (Value.unsharedFields declared) := by rw [Value.unshared]
              rw [unshared] at ran
              dsimp only at ran
              rw [Value.merge_object] at ran
              have merged : Entries.get? "_source" base = none ∨
                  (∃ given, Entries.get? "_source" base = some given ∧ given.isNull = true) →
                  WrittenOver base declared (Value.mergeFields base (Value.unsharedFields declared)) := by
                intro unnamed
                refine ⟨Value.distinct_mergeFields _, fun source found given => ?_, fun _ _ => rfl⟩
                rcases unnamed with absent | ⟨_, held, empty⟩
                · cases absent.symm.trans found
                · cases held.symm.trans found
                  rw [given] at empty
                  cases empty
              cases source : Entries.get? "_source" base with
              | none =>
                  rw [source] at ran
                  exact ⟨inner, base, own, declared, _, rfl, rfl, (pure_eq_ok.mp ran).symm,
                    merged (Or.inl source)⟩
              | some given =>
                  rw [source] at ran
                  dsimp only at ran
                  by_cases empty : given.isNull = true
                  · rw [if_pos empty] at ran
                    exact ⟨inner, base, own, declared, _, rfl, rfl, (pure_eq_ok.mp ran).symm,
                      merged (Or.inr ⟨given, source, empty⟩)⟩
                  · rw [if_neg empty] at ran
                    refine ⟨inner, base, own, declared, _, rfl, rfl, (pure_eq_ok.mp ran).symm, ?_, ?_, ?_⟩
                    · exact fun distinct => (Value.distinct_mergeFields _ distinct).put _ _
                    · intro other found _
                      rw [source] at found
                      rw [Entries.get?_put_self, found]
                    · exact fun field other => Entries.get?_put_of_ne (Ne.symm other) _ _
          | null | bool _ | int _ | float _ | text _ | array _ =>
              exact Or.inr (Or.inl ⟨rfl, by rintro _ ⟨⟩; rfl, (pure_eq_ok.mp ran).symm⟩)
  | null | bool _ | int _ | float _ | text _ | array _ =>
      refine Or.inr (Or.inr ⟨rfl, ?_⟩)
      cases known : Entries.get? name fields with
      | none =>
          rw [known] at ran
          exact (pure_eq_ok.mp ran).symm
      | some before =>
          rw [known] at ran
          cases before <;> exact (pure_eq_ok.mp ran).symm

/-- Flattening never makes a name come twice among the attributes of an item. -/
theorem hereditary_distinct (names : ∀ key mark item,
    Entries.get? key items = some (.object mark item) →
      Entries.Distinct (Entries.attributes item)) :
    Hereditary items (Entries.Distinct : Fields → Prop) where
  empty := Entries.Distinct.nil
  own key mark item found _ := names key mark item found
  root key mark item found := ((names key mark item found).filter _).mapValues _
  step := by
    intro key mark item found entry member own fields after distinct ran
    rcases override_cases ran with ⟨_, _, _, _, _, _, _, same, _⟩ | ⟨_, _, same⟩ | ⟨_, same⟩
    · refine ⟨_, same, ?_⟩
      unfold Entries.Distinct Value.putShared
      rw [Value.keys_refreshFields]
      exact distinct.put _ _
    · exact ⟨_, same, distinct.put _ _⟩
    · exact ⟨_, same, distinct.put _ _⟩
  kept attributes distinct := distinct.filter _

end EventSchema.Lineage
