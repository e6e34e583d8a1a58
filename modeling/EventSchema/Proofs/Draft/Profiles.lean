import EventSchema.Draft.Profiles
import EventSchema.Proofs.Draft.Attributes
import EventSchema.Proofs.Profiles

/-!
What closing the profiles does to the items.

An item keeps everything but its profiles. Objects are closed one after another, each seeing the
profiles of those before it as they are by then, and the classes after all objects.
-/

set_option autoImplicit false

namespace EventSchema.Draft

theorem closeProfiles_steps {draft : Draft} {kind : ItemKind} {key : Text} {item closed : Fields}
    (ran : (closeProfiles draft kind key item).Yields closed) :
    ∃ attributes reached profiles, attributesOf item = .ok attributes ∧
      reach draft (if kind = .eventClass then [] else [(key, .null)]) attributes = .ok reached ∧
      mergeProfiles (Entries.get? "profiles" item :: reached.map fun entry => some entry.2) =
        .ok profiles ∧
      closed = if profiles.isEmpty then item else Entries.put "profiles" (.array profiles) item := by
  unfold closeProfiles at ran
  obtain ⟨attributes, found, ran⟩ := Act.yields_bind ran
  obtain ⟨reached, walked, ran⟩ := Act.yields_bind ran
  obtain ⟨profiles, merged, ran⟩ := Act.yields_bind ran
  refine ⟨attributes, reached, profiles, Act.yields_lift.mp found, Act.yields_lift.mp walked,
    Act.yields_lift.mp merged, ?_⟩
  dsimp only at ran
  by_cases none : profiles.isEmpty = true
  · rw [if_pos none]
    simp only [none, if_true] at ran
    split at ran
    · obtain ⟨_, _, ran⟩ := Act.yields_bind ran
      exact (Act.yields_pure.mp ran).symm
    · exact (Act.yields_pure.mp ran).symm
  · rw [if_neg none]
    simp only [none] at ran
    split at ran
    · obtain ⟨_, _, ran⟩ := Act.yields_bind ran
      exact (Act.yields_pure.mp ran).symm
    · exact (Act.yields_pure.mp ran).symm

/-- Closing the profiles of an item adds those of the objects that it reaches and changes nothing
else. -/
theorem closeProfiles_ok {draft : Draft} {kind : ItemKind} {key : Text} {item closed : Fields}
    (ran : (closeProfiles draft kind key item).Yields closed) :
    ∃ reached contents,
      reach draft (if kind = .eventClass then [] else [(key, .null)]) (Entries.attributes item) =
        .ok reached ∧
      List.Forall₂ (fun entry items => Value.itemsOrNone (some entry.2) = .ok items)
        reached contents ∧
      Entries.profiles closed = Value.addNew [] (Entries.profiles item ++ contents.flatten) ∧
      ∀ field : Text, field ≠ "profiles" → Entries.get? field closed = Entries.get? field item := by
  obtain ⟨attributes, reached, profiles, found, walked, merged, same⟩ := closeProfiles_steps ran
  obtain ⟨all, listed, told⟩ := mergeProfiles_eq_ok.mp merged
  rw [mapM_eq_ok] at listed
  obtain ⟨own, contents, first, others, rfl⟩ := List.forall₂_cons_left_iff.mp listed
  have itself : Entries.profiles item = own := Entries.profiles_of_ok first
  rw [List.flatten_cons, ← itself] at told
  refine ⟨reached, contents, attributes_of_ok found ▸ walked,
    List.forall₂_map_left_iff.mp others, ?_, fun field other => ?_⟩
  · by_cases none : profiles.isEmpty = true
    · rw [if_pos none] at same
      rw [List.isEmpty_iff] at none
      -- an item without profiles that reaches none has none
      have nothing : Entries.profiles item = [] := by
        cases shape : Entries.profiles item with
        | nil => rfl
        | cons profile rest =>
            rw [none, shape, List.cons_append, Value.addNew_cons] at told
            exact absurd told.symm (Value.addNew_ne_nil (List.cons_ne_nil profile []))
      rw [same, ← told, none, nothing]
    · rw [if_neg none] at same
      rw [same, Entries.profiles_put, told]
  · rw [same]
    by_cases none : profiles.isEmpty = true
    · rw [if_pos none]
    · rw [if_neg none, Entries.get?_put_of_ne (Ne.symm other)]

theorem attributes_closeProfiles {draft : Draft} {kind : ItemKind} {key : Text}
    {item closed : Fields} (ran : (closeProfiles draft kind key item).Yields closed) :
    Entries.attributes closed = Entries.attributes item := by
  obtain ⟨_, _, _, _, _, frame⟩ := closeProfiles_ok ran
  rw [Entries.attributes, frame "attributes" (by decide), Entries.attributes]

/-- Objects are closed one after another, then the classes. What holds of the objects at first and is
carried on by each one that is closed holds in the end. -/
theorem closeAllProfiles_ok {draft closed : Draft} {motive : List Text → Entries Fields → Prop}
    (ran : draft.closeAllProfiles.Yields closed) (initial : motive [] draft.objects)
    (carried : ∀ done key objects item result, motive done objects →
      Entries.get? key objects = some item →
      (closeProfiles { draft with objects } .object key item).Yields result →
      motive (done ++ [key]) (Entries.put key result objects))
    (skipped : ∀ done key objects, motive done objects → Entries.get? key objects = none →
      motive (done ++ [key]) objects) :
    ∃ objects classes, closed = { draft with objects, classes } ∧
      motive (Entries.keys draft.objects) objects ∧
      Entries.Related (fun key item result =>
        (closeProfiles { draft with objects } .eventClass key item).Yields result)
        draft.classes classes := by
  unfold closeAllProfiles at ran
  obtain ⟨middle, first, ran⟩ := Act.yields_bind ran
  obtain ⟨classes, each, ran⟩ := Act.yields_bind ran
  obtain ⟨same, held⟩ : middle = { draft with objects := middle.objects } ∧
      motive (Entries.keys draft.objects) middle.objects := by
    refine Act.foldlM_progress (motive := fun done state =>
      state = { draft with objects := state.objects } ∧ motive done state.objects) first
      ⟨rfl, initial⟩ ?_
    rintro done key state next ⟨shape, held⟩ ran
    cases found : Entries.get? key state.objects with
    | none =>
        rw [found] at ran
        rw [← Act.yields_pure.mp ran]
        exact ⟨shape, skipped done key state.objects held found⟩
    | some item =>
        rw [found] at ran
        obtain ⟨result, closing, ran⟩ := Act.yields_bind ran
        rw [← Act.yields_pure.mp ran]
        refine ⟨by rw [shape], carried done key state.objects item result held found ?_⟩
        rw [← shape]
        exact closing
  refine ⟨middle.objects, classes, ?_, held, ?_⟩
  · rw [← Act.yields_pure.mp ran, same]
  · have sameClasses : middle.classes = draft.classes := by rw [same]
    rw [← same, ← sameClasses]
    exact Act.yields_mapEntries each

end EventSchema.Draft
