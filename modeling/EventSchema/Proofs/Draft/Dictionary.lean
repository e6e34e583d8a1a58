import EventSchema.Draft.Dictionary
import EventSchema.Proofs.Draft.Without

/-!
The dictionary resolved with the items of a scope and without them.

An attribute of the dictionary that does not lead into the scope means the same object in both
drafts, so the resolved attributes are the same, and they still do not lead into it.
-/

set_option autoImplicit false

namespace EventSchema.Draft

open Value

variable {scope : Text} {full part : Draft}

/-- What an attribute of the dictionary names as its type or object. -/
theorem nameOutside_type {field : Fields} (clear : ClearSurface scope field) :
    Scope.NameOutside scope (if (Entries.orNull "type" field).equals (.text "object_t") then
      Entries.orNull "object_type" field else Entries.orNull "type" field) := by
  split
  · exact clear.name (by decide)
  · exact clear.name (by decide)

private theorem resolveType_outside (proper : Scope.Proper scope) (types : part.types = full.types)
    (objects : part.objects = Entries.outside scope full.objects) (name : Text) {value : Value}
    (clear : ClearAttribute scope value) :
    Act.Agree (resolveType part name value) (resolveType full name value) := by
  unfold resolveType
  refine (Act.agree_lift rfl).bind fun field opened _ => ?_
  have surface := clear.asFields (Act.yields_lift.mp opened)
  have named := nameOutside_type surface
  have asked : ∀ owner, Entries.get? "extension" field = some owner →
      Scope.OwnerOutside scope owner := fun owner known => surface.owner proper known
  rw [types, objects]
  dsimp only
  split
  · exact (Act.agree_unit _ _).bind fun _ _ _ => Act.agree_pure _
  · refine (Act.agree_lift rfl).bind fun known _ _ => ?_
    split
    · exact (Act.agree_lift rfl).bind fun _ _ _ => Act.agree_pure _
    · refine (Act.agree_lift (Scope.find?_outside proper.plain _ named asked)).bind fun found _ met => ?_
      split
      · rename_i key
        have free := Scope.nameOutside_of_findBy proper.plain named asked (Act.yields_lift.mp met)
        exact (Act.agree_lift (refer_outside free field)).bind fun _ _ _ => Act.agree_pure _
      · exact (Act.agree_unit _ _).bind fun _ _ _ => Act.agree_pure _

private theorem refer_clear {objects : Entries Fields} {key : Value} {field after : Fields}
    (named : Scope.NameOutside scope key) (clear : ClearSurface scope field)
    (ran : refer objects key field = .ok after) : ClearSurface scope after := by
  unfold refer at ran
  obtain ⟨object, _, ran⟩ := bind_eq_ok.mp ran
  rw [← pure_eq_ok.mp ran]
  refine ((clear.put ?_).put (clearField_of_name named (by decide))).put
    (clearField_of_key (by decide) _)
  exact clearField_text (Scope.owns_of_plain _ (by decide)) (by decide)

private theorem resolveType_clear (proper : Scope.Proper scope) {draft : Draft} {name : Text}
    {value resolved : Value} (clear : ClearAttribute scope value)
    (ran : (resolveType draft name value).Yields resolved) : ClearAttribute scope resolved := by
  unfold resolveType at ran
  obtain ⟨field, opened, ran⟩ := Act.yields_bind ran
  have surface := clear.asFields (Act.yields_lift.mp opened)
  dsimp only at ran
  split at ran
  · obtain ⟨_, _, ran⟩ := Act.yields_bind ran
    exact Act.yields_pure.mp ran ▸ clear
  · obtain ⟨known, _, ran⟩ := Act.yields_bind ran
    split at ran
    · obtain ⟨_, _, ran⟩ := Act.yields_bind ran
      rw [← Act.yields_pure.mp ran]
      exact clearAttribute_record (surface.put (clearField_of_key (by decide) _))
    · obtain ⟨found, met, ran⟩ := Act.yields_bind ran
      split at ran
      · rename_i key
        obtain ⟨referred, wrote, ran⟩ := Act.yields_bind ran
        have free := Scope.nameOutside_of_findBy proper.plain (nameOutside_type surface)
          (fun owner known => surface.owner proper known) (Act.yields_lift.mp met)
        rw [← Act.yields_pure.mp ran]
        exact clearAttribute_record (refer_clear free surface (Act.yields_lift.mp wrote))
      · obtain ⟨_, _, ran⟩ := Act.yields_bind ran
        exact Act.yields_pure.mp ran ▸ clear

/-! ### The siblings of timestamps -/

private theorem datetimeSibling?_clear {types : Fields} {entry sibling : Text × Value}
    (clear : ClearAttribute scope entry.2)
    (ran : datetimeSibling? types entry = .ok (some sibling)) : ClearAttribute scope sibling.2 := by
  unfold datetimeSibling? at ran
  obtain ⟨field, opened, ran⟩ := bind_eq_ok.mp ran
  have surface := clear.unshared.asFields opened
  split at ran
  · obtain ⟨definition, _, ran⟩ := bind_eq_ok.mp ran
    rw [← Option.some.inj (pure_eq_ok.mp ran)]
    refine clearAttribute_record ((surface.put ?_).put (clearField_of_key (by decide) _))
    exact clearField_text (Scope.owns_of_plain _ (by decide)) (by decide)
  · cases pure_eq_ok.mp ran

private theorem clearAttributes_foldl_putNew {siblings attributes : Fields}
    (clear : ClearAttributes scope attributes)
    (each : ∀ sibling ∈ siblings, ClearAttribute scope sibling.2) :
    ClearAttributes scope (siblings.foldl (fun all sibling => Entries.putNew sibling.1 sibling.2 all)
      attributes) := by
  induction siblings generalizing attributes with
  | nil => exact clear
  | cons head rest ih =>
      have split := List.forall_mem_cons.mp each
      exact ih (clear.putNew _ split.1) split.2

/-! ### The whole dictionary -/

theorem datetimeEnabled_outside (types : part.types = full.types)
    (profiles : part.profiles = full.profiles.outside scope) :
    part.datetimeEnabled = full.datetimeEnabled := by
  have named : Scope.NameOutside scope (.text "datetime") := by
    intro text same
    rw [← Value.text.inj same]
    exact Scope.owns_of_plain _ (by decide)
  unfold datetimeEnabled holds
  rw [types, profiles, Scope.member_outside named]

theorem resolveDictionary_outside (proper : Scope.Proper scope) (without : Without scope full part)
    (clear : ClearAttributes scope part.attributes) {full' part' : Draft}
    (whole : full.resolveDictionary.Yields full') (rest : part.resolveDictionary.Yields part') :
    Without scope full' part' ∧ ClearAttributes scope part'.attributes := by
  unfold resolveDictionary at whole rest
  obtain ⟨attributes, each, whole⟩ := Act.yields_bind whole
  obtain ⟨attributes', each', rest⟩ := Act.yields_bind rest
  obtain ⟨enabled, asked, whole⟩ := Act.yields_bind whole
  obtain ⟨enabled', asked', rest⟩ := Act.yields_bind rest
  have related := Act.yields_mapEntries each
  have related' := Act.yields_mapEntries each'
  rw [without.attributes] at related' clear
  have same : attributes' = attributes := by
    refine related'.unique related ?_
    intro entry member left right one two
    exact resolveType_outside proper without.types without.objects entry.1 (clear entry member)
      left right one two
  have sameEnabled : enabled' = enabled := by
    rw [Act.yields_lift] at asked asked'
    rw [datetimeEnabled_outside without.types without.profiles, asked] at asked'
    exact (Except.ok.inj asked').symm
  subst same sameEnabled
  have resolved : ClearAttributes scope attributes' := by
    intro entry member
    obtain ⟨origin, known, ran⟩ := related.mem_right member
    exact resolveType_clear proper (clear _ known) ran
  cases enabled' with
  | false =>
      rw [← Act.yields_pure.mp whole, ← Act.yields_pure.mp rest]
      exact ⟨{ without with attributes := rfl }, resolved⟩
  | true =>
      obtain ⟨_, _, whole⟩ := Act.yields_bind whole
      obtain ⟨_, _, rest⟩ := Act.yields_bind rest
      obtain ⟨siblings, found, whole⟩ := Act.yields_bind whole
      obtain ⟨siblings', found', rest⟩ := Act.yields_bind rest
      rw [Act.yields_lift] at found found'
      rw [without.types, found] at found'
      have sameSiblings := Except.ok.inj found'
      subst sameSiblings
      rw [← Act.yields_pure.mp whole, ← Act.yields_pure.mp rest]
      refine ⟨{ without with attributes := rfl }, clearAttributes_foldl_putNew resolved ?_⟩
      intro sibling member
      obtain ⟨entry, known, one⟩ := exists_of_filterMapM found member
      exact datetimeSibling?_clear (resolved entry known) one

end EventSchema.Draft
