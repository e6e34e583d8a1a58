import EventSchema.Contribution.Patch
import EventSchema.Proofs.Outcome

/-!
What a patch does to an item.

A patch writes the attributes of the item, the list of its profiles, a few fields that it replaces, and
the list of those that patched it. It reaches an item of the base schema only.
-/

set_option autoImplicit false

namespace EventSchema.Patch

private theorem addPatcher_ok {patcher : Value} {item result : Fields} (ran : addPatcher patcher item = .ok result) :
    ∃ patchers, result = Entries.put "_patched_by" (.array patchers) item := by
  unfold addPatcher at ran
  split at ran
  · split at ran
    · exact ⟨_, (Except.ok.inj ran).symm⟩
    · split at ran
      · exact ⟨_, (Except.ok.inj ran).symm⟩
      · cases ran
  · cases ran

/-- The attributes that a patch of a name gives, ready to be merged into those of the item. -/
def changed (patcher name : Text) (item changes : Fields) : Fields :=
  Entries.mapValues (sourced (Scope.within patcher name))
    (Value.shiftFields (Value.boundFields item) changes)

theorem applyTo_ok {name : Text} {patch item result : Fields} (ran : applyTo name patch item = .ok result) :
    ∃ patcher listed changes attributes patchers, (Value.record patch).at_ "extension" = .ok patcher ∧
      (listed = item ∨ ∃ joined, listed = Entries.put "profiles" (.array joined) item) ∧
      Value.fieldsOrNone (Entries.get? "attributes" patch) = .ok changes ∧
      (changes = [] ∧ attributes = Entries.orEmpty "attributes" listed ∨
        ∃ fields, (Entries.orEmpty "attributes" listed).asFields = .ok fields ∧
          attributes = .record (Value.overlay fields (changed patcher.shown name listed changes))) ∧
      result = Entries.put "_patched_by" (.array patchers) (replaceConstraints patch
        (replacedKeys.foldl (replace patch) (Entries.put "attributes" attributes listed))) := by
  unfold applyTo at ran
  obtain ⟨patcher, patched, ran⟩ := bind_eq_ok.mp ran
  extract_lets merge at ran
  have merged {listed : Fields} (ran : merge listed = .ok result) :
      ∃ changes attributes patchers, Value.fieldsOrNone (Entries.get? "attributes" patch) = .ok changes ∧
        (changes = [] ∧ attributes = Entries.orEmpty "attributes" listed ∨
          ∃ fields, (Entries.orEmpty "attributes" listed).asFields = .ok fields ∧
            attributes = .record (Value.overlay fields (changed patcher.shown name listed changes))) ∧
        result = Entries.put "_patched_by" (.array patchers) (replaceConstraints patch
          (replacedKeys.foldl (replace patch) (Entries.put "attributes" attributes listed))) := by
    obtain ⟨changes, read, ran⟩ := bind_eq_ok.mp ran
    extract_lets shifted renamed finish at ran
    have finished {attributes : Value} (ran : finish attributes = .ok result) :
        ∃ patchers, result = Entries.put "_patched_by" (.array patchers) (replaceConstraints patch
          (replacedKeys.foldl (replace patch) (Entries.put "attributes" attributes listed))) :=
      addPatcher_ok ran
    split at ran
    · rename_i empty
      obtain ⟨patchers, same⟩ := finished ran
      refine ⟨changes, _, patchers, read, Or.inl ⟨?_, rfl⟩, same⟩
      cases changes with
      | nil => rfl
      | cons head rest => cases empty
    · obtain ⟨fields, opened, ran⟩ := bind_eq_ok.mp ran
      obtain ⟨patchers, same⟩ := finished ran
      exact ⟨changes, _, patchers, read, Or.inr ⟨fields, opened, rfl⟩, same⟩
  split at ran
  · split at ran
    · obtain ⟨joined, _, ran⟩ := bind_eq_ok.mp ran
      obtain ⟨changes, attributes, patchers, rest⟩ := merged ran
      exact ⟨patcher, _, changes, attributes, patchers, patched, Or.inr ⟨joined, rfl⟩, rest⟩
    · obtain ⟨changes, attributes, patchers, rest⟩ := merged ran
      exact ⟨patcher, _, changes, attributes, patchers, patched, Or.inl rfl, rest⟩
  · obtain ⟨changes, attributes, patchers, rest⟩ := merged ran
    exact ⟨patcher, _, changes, attributes, patchers, patched, Or.inl rfl, rest⟩

/-- The fields of an item that a patch may write. -/
def writtenKeys : List Text :=
  "profiles" :: "attributes" :: "constraints" :: "_patched_by" :: replacedKeys

private theorem sameBeside_replaceEach {written : List Text} {patch before item : Fields} {keys : List Text}
    (among : ∀ key ∈ keys, key ∈ written) (same : Entries.SameBeside written before item) :
    Entries.SameBeside written before (keys.foldl (replace patch) item) := by
  induction keys generalizing item with
  | nil => exact same
  | cons head rest ih =>
      obtain ⟨first, others⟩ := List.forall_mem_cons.mp among
      refine ih others ?_
      unfold replace
      split
      · split
        · exact same
        · exact same.put first _
      · exact same

private theorem sameBeside_replaceConstraints {written : List Text} {patch before item : Fields}
    (among : ("constraints" : Text) ∈ written) (same : Entries.SameBeside written before item) :
    Entries.SameBeside written before (replaceConstraints patch item) := by
  unfold replaceConstraints
  split
  · split
    · exact same.put among _
    · exact same.erase among
  · exact same

/-- What is written once the attributes are merged leaves them alone. -/
theorem get?_attributes_patched {patch listed : Fields} (attributes : Value) (patchers : List Value) :
    Entries.get? "attributes" (Entries.put "_patched_by" (.array patchers) (replaceConstraints patch
      (replacedKeys.foldl (replace patch) (Entries.put "attributes" attributes listed)))) =
      some attributes := by
  have same : Entries.SameBeside ("constraints" :: "_patched_by" :: replacedKeys)
      (Entries.put "attributes" attributes listed) (Entries.put "_patched_by" (.array patchers)
        (replaceConstraints patch (replacedKeys.foldl (replace patch)
          (Entries.put "attributes" attributes listed)))) :=
    (sameBeside_replaceConstraints (by decide)
      (sameBeside_replaceEach (by decide) (.refl _ _))).put (by decide) _
  rw [same "attributes" (by decide), Entries.get?_put_self]

theorem sameBeside_applyTo {name : Text} {patch item result : Fields}
    (ran : applyTo name patch item = .ok result) : Entries.SameBeside writtenKeys item result := by
  obtain ⟨_, listed, _, attributes, patchers, _, shape, _, _, rfl⟩ := applyTo_ok ran
  have start := Entries.SameBeside.refl writtenKeys item
  have joined : Entries.SameBeside writtenKeys item listed := by
    rcases shape with rfl | ⟨joined, rfl⟩
    · exact start
    · exact start.put (by decide) _
  have merged : Entries.SameBeside writtenKeys item (Entries.put "attributes" attributes listed) :=
    joined.put (by decide) _
  exact (sameBeside_replaceConstraints (by decide) (sameBeside_replaceEach (by decide) merged)).put
    (by decide) _

/-- A patch reaches an item without an owner, or it reaches nothing. -/
theorem apply_ok {kind : ItemKind} {items after : Entries Fields} {name : Text} {patch : Fields}
    (ran : (apply kind items name patch).Yields after) :
    (Entries.get? name items = none ∧ after = items) ∨
      ∃ item patched, Entries.get? name items = some item ∧ Entries.get? "extension" item = none ∧
        applyTo name patch item = .ok patched ∧ after = Entries.put name patched items := by
  unfold apply at ran
  obtain ⟨_, _, ran⟩ := Act.yields_bind ran
  cases found : Entries.get? name items with
  | none =>
      rw [found] at ran
      obtain ⟨_, _, ran⟩ := Act.yields_bind ran
      exact Or.inl ⟨rfl, (Act.yields_pure.mp ran).symm⟩
  | some item =>
      rw [found] at ran
      dsimp only at ran
      split at ran
      · exact absurd ran Act.not_yields_throw
      · rename_i unowned
        obtain ⟨_, _, ran⟩ := Act.yields_bind ran
        obtain ⟨patched, one, ran⟩ := Act.yields_bind ran
        exact Or.inr ⟨item, patched, rfl, unowned, Act.yields_lift.mp one,
          (Act.yields_pure.mp ran).symm⟩

theorem related_applyAll {kind : ItemKind} {patches : Patches} {items patched : Entries Fields}
    (ran : (applyAll kind items patches).Yields patched) :
    Entries.Related (fun _ => Entries.SameBeside writtenKeys) items patched := by
  have itself (items : Entries Fields) :
      Entries.Related (fun _ => Entries.SameBeside writtenKeys) items items :=
    List.forall₂_same.mpr fun _ _ => ⟨rfl, .refl _ _⟩
  have onward {first middle last : Entries Fields}
      (one : Entries.Related (fun _ => Entries.SameBeside writtenKeys) first middle)
      (two : Entries.Related (fun _ => Entries.SameBeside writtenKeys) middle last) :
      Entries.Related (fun _ => Entries.SameBeside writtenKeys) first last :=
    (one.trans two).imp fun _ _ _ ⟨_, before, after⟩ => before.trans after
  refine Act.foldlM_keeps ran (itself items) fun state entry next _ held step => onward held ?_
  refine Act.foldlM_keeps step (itself state) fun before patch after _ held step => onward held ?_
  rcases apply_ok step with ⟨_, rfl⟩ | ⟨item, result, found, _, one, rfl⟩
  · exact itself _
  · exact Entries.related_put (fun _ _ => .refl _ _) found (sameBeside_applyTo one)

end EventSchema.Patch
