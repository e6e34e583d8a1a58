import EventSchema.Proofs.Graph.Closure

/-!
What becomes of the attributes of a flattened item.

Until the profiles are closed, identifying a class has written a few of its attributes, and the object
for observables has got its enumeration; every other item has the attributes that it was flattened to.
Then each attribute is filled in and finished over the dictionary, all attributes of which are objects
by then.
-/

set_option autoImplicit false

namespace EventSchema

namespace Draft

/-! ### The dictionary -/

theorem isObject_resolveType {draft : Draft} {name : Text} {value resolved : Value}
    (ran : (resolveType draft name value).Yields resolved) : resolved.isObject = true := by
  unfold resolveType at ran
  obtain ⟨field, opened, ran⟩ := Act.yields_bind ran
  have itself : value.isObject = true := by
    obtain ⟨mark, shape⟩ := Value.inner_of_asFields (Act.yields_lift.mp opened)
    rw [shape]
    rfl
  dsimp only at ran
  split at ran
  · obtain ⟨_, _, ran⟩ := Act.yields_bind ran
    exact Act.yields_pure.mp ran ▸ itself
  · obtain ⟨known, _, ran⟩ := Act.yields_bind ran
    split at ran
    · obtain ⟨_, _, ran⟩ := Act.yields_bind ran
      rw [← Act.yields_pure.mp ran]
      rfl
    · obtain ⟨found, _, ran⟩ := Act.yields_bind ran
      split at ran
      · obtain ⟨referred, _, ran⟩ := Act.yields_bind ran
        rw [← Act.yields_pure.mp ran]
        rfl
      · obtain ⟨_, _, ran⟩ := Act.yields_bind ran
        exact Act.yields_pure.mp ran ▸ itself

private theorem isObject_datetimeSibling? {types : Fields} {entry sibling : Text × Value}
    (ran : datetimeSibling? types entry = .ok (some sibling)) : sibling.2.isObject = true := by
  unfold datetimeSibling? at ran
  obtain ⟨field, _, ran⟩ := bind_eq_ok.mp ran
  split at ran
  · obtain ⟨definition, _, ran⟩ := bind_eq_ok.mp ran
    rw [← Option.some.inj (pure_eq_ok.mp ran)]
    rfl
  · cases pure_eq_ok.mp ran

private theorem isObject_resolveDictionary {draft resolved : Draft} (ran : draft.resolveDictionary.Yields resolved) :
    ∀ entry ∈ resolved.attributes, entry.2.isObject = true := by
  unfold resolveDictionary at ran
  obtain ⟨attributes, each, ran⟩ := Act.yields_bind ran
  obtain ⟨enabled, _, ran⟩ := Act.yields_bind ran
  have objects : ∀ entry ∈ attributes, entry.2.isObject = true := by
    intro entry member
    obtain ⟨origin, _, ran⟩ := (Act.yields_mapEntries each).mem_right member
    exact isObject_resolveType ran
  cases enabled with
  | true =>
      obtain ⟨_, _, ran⟩ := Act.yields_bind ran
      obtain ⟨siblings, made, ran⟩ := Act.yields_bind ran
      rw [← Act.yields_pure.mp ran]
      refine List.foldlRecOn siblings _ (motive := fun attributes : Fields =>
        ∀ entry ∈ attributes, entry.2.isObject = true) objects fun attributes held sibling member => ?_
      obtain ⟨_, _, made⟩ := exists_of_filterMapM (Act.yields_lift.mp made) member
      unfold Entries.putNew
      split
      · exact held
      · intro entry known
        rcases Entries.mem_of_mem_put known with written | before
        · exact written ▸ isObject_datetimeSibling? made
        · exact held entry before
  | false =>
      rw [← Act.yields_pure.mp ran]
      exact objects

end Draft

namespace Stages

variable {d : Definitions} {graph : Graph} (stages : Stages d graph)

theorem dictionary_eq : stages.required.attributes = stages.resolved.attributes := by
  obtain ⟨_, identified, _⟩ := Draft.identifyClasses_ok stages.identifying
  have listed : stages.listed.attributes = stages.identified.attributes := by
    rcases Draft.listObservables_ok stages.listing with ⟨_, same⟩ | ⟨_, _, _, _, _, _, _, _, same⟩
    · rw [same]
    · rw [same]
  obtain ⟨_, _, closed, _⟩ := Draft.closeAllProfiles_ok (motive := fun _ _ => True) stages.closing
    trivial (fun _ _ _ _ _ _ _ _ => trivial) (fun _ _ _ _ _ => trivial)
  have last : stages.closed.attributes = stages.listed.attributes := by rw [closed]
  rw [stages.sameReferences.1, last, listed, identified]

theorem isObject_dictionary {name : Text} {shared : Value}
    (known : Entries.get? name stages.required.attributes = some shared) : shared.isObject = true := by
  rw [stages.dictionary_eq] at known
  exact Draft.isObject_resolveDictionary stages.resolving _ (Entries.mem_of_get? known)

/-- The draft whose dictionary is resolved has no other items than flattened ones. -/
theorem flat_of_resolved {key : Text} {item : Fields} :
    (Entries.get? key stages.resolved.classes = some item →
      Lineage.Flat .eventClass stages.rawClasses key item) ∧
    (Entries.get? key stages.resolved.objects = some item →
      Lineage.Flat .object stages.rawObjects key item) := by
  obtain ⟨_, resolved⟩ := Draft.resolveDictionary_ok stages.resolving
  rw [resolved]
  constructor
  · intro found
    obtain ⟨_, _, flat⟩ := (Lineage.flattenAll_ok stages.flattenClasses).mem_right
      (List.mem_of_mem_filter (Entries.mem_of_get? found))
    exact flat
  · intro found
    obtain ⟨_, _, flat⟩ := (Lineage.flattenAll_ok stages.flattenObjects).mem_right
      (List.mem_of_mem_filter (Entries.mem_of_get? found))
    exact flat

theorem identified_class {key : Text} {item : Fields} (found : Entries.get? key stages.closed.classes = some item) :
    ∃ flat identified, Lineage.Flat .eventClass stages.rawClasses key flat ∧
      (Draft.identify stages.resolved key flat).Yields identified ∧
      Entries.attributes item = Entries.attributes identified ∧
      ∀ field : Text, field ≠ "profiles" → Entries.get? field item = Entries.get? field identified := by
  obtain ⟨classes, identified, identifies⟩ := Draft.identifyClasses_ok stages.identifying
  obtain ⟨_, _, closed, _, closes⟩ := Draft.closeAllProfiles_ok (motive := fun _ _ => True)
    stages.closing trivial (fun _ _ _ _ _ _ _ _ => trivial) (fun _ _ _ _ _ => trivial)
  have listed : stages.listed.classes = classes := by
    rcases Draft.listObservables_ok stages.listing with ⟨_, same⟩ | ⟨_, _, _, _, _, _, _, _, same⟩
    · rw [same, identified]
    · rw [same, identified]
  rw [closed] at found
  obtain ⟨before, known, closing⟩ := closes.get?_right found
  rw [listed] at known
  obtain ⟨flat, known, identifying⟩ := identifies.get?_right known
  obtain ⟨_, _, _, _, _, frame⟩ := Draft.closeProfiles_ok closing
  exact ⟨flat, before, stages.flat_of_resolved.1 known, identifying, Draft.attributes_closeProfiles closing, frame⟩

/-- Identifying a class has retouched its attributes by the time the profiles are closed. -/
theorem closed_class {key : Text} {item : Fields} (found : Entries.get? key stages.closed.classes = some item) :
    ∃ flat, Lineage.Flat .eventClass stages.rawClasses key flat ∧
      Draft.Retouched key (Entries.attributes flat) (Entries.attributes item) := by
  obtain ⟨flat, identified, computed, identifying, attributes, _⟩ := stages.identified_class found
  exact ⟨flat, computed, attributes ▸ (Draft.identify_ok identifying).1⟩

theorem closed_object {key : Text} {item : Fields} (found : Entries.get? key stages.closed.objects = some item) :
    ∃ flat, Lineage.Flat .object stages.rawObjects key flat ∧
      (key ≠ "observable" ∧ Entries.attributes item = Entries.attributes flat ∨
        key = "observable" ∧ ∃ ids enumeration,
          (Entries.orEmpty "type_id" (Entries.attributes flat)).asFields = .ok ids ∧
          Draft.enumerate stages.identified.observables (Entries.orEmpty "enum" ids) = .ok enumeration ∧
          Entries.attributes item = Value.putShared "type_id"
            (.record (Entries.put "enum" enumeration ids)) (Entries.attributes flat)) := by
  obtain ⟨_, identified, _⟩ := Draft.identifyClasses_ok stages.identifying
  obtain ⟨objects, _, closed, closing, _⟩ := Draft.closeAllProfiles_ok
    (motive := Draft.Closing stages.listed) stages.closing (.start _)
    (fun _ _ _ _ _ closing found closed => closing.step found closed)
    (fun _ _ _ closing absent => closing.skip absent)
  have identifiedObjects : stages.identified.objects = stages.resolved.objects := by rw [identified]
  have flattened {flat : Fields} (known : Entries.get? key stages.identified.objects = some flat) :
      Lineage.Flat .object stages.rawObjects key flat :=
    stages.flat_of_resolved.2 (identifiedObjects ▸ known)
  rw [closed] at found
  obtain ⟨listed, known, attributes⟩ := closing.same.attributes key item found
  rw [attributes]
  rcases Draft.listObservables_ok stages.listing with ⟨absent, same⟩ |
    ⟨object, own, ids, enumeration, held, opened, read, enumerated, same⟩
  · rw [same] at known
    refine ⟨listed, flattened known, Or.inl ⟨?_, rfl⟩⟩
    rintro rfl
    cases absent.symm.trans known
  · rw [same, Entries.get?_put] at known
    split at known
    · rename_i observable
      cases known
      subst observable
      refine ⟨object, flattened held, Or.inr ⟨rfl, ids, enumeration, ?_, enumerated, ?_⟩⟩
      · rw [Draft.attributes_of_ok opened]
        exact read
      · rw [Entries.attributes_put_record, Draft.attributes_of_ok opened]
    · rename_i other
      exact ⟨listed, flattened known, Or.inl ⟨other, rfl⟩⟩

end Stages

end EventSchema
