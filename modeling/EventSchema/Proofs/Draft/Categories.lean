import EventSchema.Proofs.Draft.Classes
import EventSchema.Proofs.Draft.Without
import EventSchema.Proofs.Graph.Stages

/-!
Classes identified with the categories of a scope and without them.

All that a class takes from the rest of the schema is its category. A class that does not lead into
the scope finds the same category without the categories of the scope, and whatever it is identified
by is then the same.
-/

set_option autoImplicit false

namespace EventSchema.Draft

open Value

variable {scope : Text} {full part : Draft}

/-! ### Actions that ask the class alone -/

private theorem agree_localUid (key : Text) (item : Fields) :
    Act.Agree (localUid key item) (localUid key item) := by
  unfold localUid
  dsimp only
  split
  · split
    · exact Act.agree_pure _
    · exact (Act.agree_unit _ _).bind fun _ _ _ => Act.agree_pure _
  · exact (Act.agree_unit _ _).bind fun _ _ _ => Act.agree_pure _

private theorem agree_addActivity (key : Text) (uid caption : Value) (types : Fields)
    (activity : Text × Value) :
    Act.Agree (addActivity key uid caption types activity)
      (addActivity key uid caption types activity) := by
  unfold addActivity
  split
  · exact (Act.agree_unit _ _).bind fun _ _ _ => Act.agree_pure _
  · split
    · exact (Act.agree_lift rfl).bind fun _ _ _ => (Act.agree_lift rfl).bind fun _ _ _ =>
        Act.agree_pure _
    · exact (Act.agree_unit _ _).bind fun _ _ _ => Act.agree_pure _

private theorem agree_listTypes (key : Text) (uid caption : Value) (attributes : Fields) :
    Act.Agree (listTypes key uid caption attributes) (listTypes key uid caption attributes) := by
  unfold listTypes
  extract_lets activities last choose
  have lastAgrees (types : Fields) : Act.Agree (last types) (last types) :=
    (Act.agree_lift rfl).bind fun _ _ _ => (Act.agree_lift rfl).bind fun _ _ _ => Act.agree_pure _
  have chooseAgrees (enumeration : Value) : Act.Agree (choose enumeration) (choose enumeration) := by
    unfold choose
    split
    · refine (Act.agree_lift rfl).bind fun entries _ _ => ?_
      exact (Act.agree_foldlM entries [] fun state entry _ =>
        agree_addActivity key uid caption state entry).bind fun types _ _ => lastAgrees types
    · exact (Act.agree_unit _ _).bind fun _ _ _ => (Act.agree_pure _).bind fun types _ _ =>
        lastAgrees types
  split
  · exact (Act.agree_lift rfl).bind fun _ _ _ => (Act.agree_pure _).bind fun enumeration _ _ =>
      chooseAgrees enumeration
  · exact (Act.agree_pure _).bind fun enumeration _ _ => chooseAgrees enumeration

private theorem agree_reportCategory (key : Text) (name : Value) (item : Fields) :
    Act.Agree (reportCategory key name item) (reportCategory key name item) := by
  unfold reportCategory
  split
  · exact (Act.agree_unit _ _).bind fun _ _ _ => Act.agree_pure _
  · split
    · split
      · exact (Act.agree_unit _ _).bind fun _ _ _ => Act.agree_pure _
      · exact Act.agree_pure _
    · exact (Act.agree_unit _ _).bind fun _ _ _ => Act.agree_pure _

/-! ### The category of a class -/

private theorem categoryOf_outside (proper : Scope.Proper scope)
    (categories : part.categories = full.categories.outside scope) {item : Fields}
    (clear : ClearSurface scope item) : categoryOf part item = categoryOf full item := by
  have named : Scope.NameOutside scope (Entries.orNull "category" item) := clear.name (by decide)
  have asked : ∀ owner, Entries.get? "extension" item = some owner →
      Scope.OwnerOutside scope owner := fun owner known => clear.owner proper known
  unfold categoryOf
  dsimp only
  rw [categories, Scope.findIn_outside proper.plain _ named asked]
  cases found : Scope.findIn full.categories (Entries.orNull "category" item)
      (Entries.get? "extension" item) with
  | error fault => rfl
  | ok key? =>
      cases key? with
      | none => rfl
      | some key =>
          have free := Scope.nameOutside_of_findBy proper.plain named asked found
          cases full.categories with
          | object mark fields =>
              simp only [ok_bind, Value.outside, asFields, Scope.lookup?_outside free]
          | null | bool _ | int _ | float _ | text _ | array _ => rfl

private theorem identify_outside (proper : Scope.Proper scope)
    (categories : part.categories = full.categories.outside scope) (key : Text) {item : Fields}
    (clear : ClearSurface scope item) :
    Act.Agree (identify part key item) (identify full key item) := by
  have surface : ClearSurface scope (Entries.putNew "attributes" (.record []) item) :=
    clear.putNew (clearField_of_object rfl)
  unfold identify
  extract_lets caption name whole
  refine (Act.agree_lift (categoryOf_outside proper categories surface)).bind fun category _ _ => ?_
  extract_lets rest
  have restAgrees (pair : Fields × Value) : Act.Agree (rest pair) (rest pair) := by
    refine (agree_localUid key pair.1).bind fun own _ _ => ?_
    refine (Act.agree_lift rfl).bind fun outer _ _ => (Act.agree_lift rfl).bind fun uid _ _ => ?_
    refine (Act.agree_lift rfl).bind fun attributes _ _ => ?_
    refine (agree_listTypes key uid caption attributes).bind fun typed _ _ => ?_
    refine (Act.agree_lift rfl).bind fun classed _ _ => ?_
    cases category with
    | some category => exact (Act.agree_lift rfl).bind fun _ _ _ => Act.agree_pure _
    | none => exact agree_reportCategory key name _
  cases category with
  | some category =>
      refine (Act.agree_lift rfl).bind fun fields _ _ => ?_
      exact (Act.agree_pure _).bind fun pair _ _ => restAgrees pair
  | none => exact (Act.agree_pure _).bind fun pair _ _ => restAgrees pair

/-! ### All classes -/

theorem ClearAttributes.orEmpty {attributes : Fields} (clear : ClearAttributes scope attributes)
    (name : Text) : ClearAttribute scope (Entries.orEmpty name attributes) := by
  unfold Entries.orEmpty Entries.getOr
  cases found : Entries.get? name attributes with
  | none => exact clearAttribute_record fun entry impossible => by cases impossible
  | some value => exact clear _ (Entries.mem_of_get? found)

theorem Retouched.clear {source : Text} (free : Scope.owns scope source = false)
    {before after : Fields} (retouched : Retouched source before after)
    (clear : ClearAttributes scope before) : ClearAttributes scope after := by
  induction retouched with
  | same => exact clear
  | @field after key changed value name earlier written wrote ih =>
      refine ih.put name ?_
      cases shape : Entries.orEmpty name after with
      | object mark field =>
          have surface := ih.orEmpty name mark field shape
          rw [shape] at wrote
          rw [← Except.ok.inj wrote]
          rintro _ _ ⟨⟩
          rcases written with rfl | rfl
          · exact surface.put (clearField_of_key (by decide) _)
          · exact surface.put (clearField_of_key (by decide) _)
      | null | bool _ | int _ | float _ | text _ | array _ =>
          rw [shape] at wrote
          cases wrote
  | @source after name earlier ih =>
      unfold setSource
      split
      · rename_i mark field found
        have surface := ih _ (Entries.mem_of_get? found) mark field rfl
        refine ih.put name ?_
        rintro _ _ ⟨⟩
        exact surface.putNew (clearField_text free (by decide))
      · exact ih

private theorem identify_guarded (proper : Scope.Proper scope) {draft : Draft} {key : Text}
    (free : Scope.owns scope key = false) {item result : Fields} (clear : ClearFields scope item)
    (ran : (identify draft key item).Yields result) : Guarded scope result := by
  obtain ⟨retouched, others⟩ := identify_ok ran
  constructor
  · intro owner found
    rw [others "extension" (by decide)] at found
    exact clear.surface.owner proper found
  · exact retouched.clear free (clearAttributes_of_clear clear.attributes)

theorem identifyClasses_outside (proper : Scope.Proper scope) (without : Without scope full part)
    (clear : ∀ entry ∈ part.classes, ClearFields scope entry.2) {full' part' : Draft}
    (whole : full.identifyClasses.Yields full') (rest : part.identifyClasses.Yields part') :
    Without scope full' part' ∧ ∀ entry ∈ part'.classes, Guarded scope entry.2 := by
  obtain ⟨classes, rfl, each⟩ := identifyClasses_ok whole
  obtain ⟨classes', rfl, each'⟩ := identifyClasses_ok rest
  rw [without.classes] at each' clear
  constructor
  · refine { without with classes := each.outside each' ?_ }
    intro entry member free left right one two
    have known := Entries.mem_outside.mpr ⟨member, free⟩
    exact (identify_outside proper without.categories entry.1 (clear entry known).surface
      right left two one).symm
  · intro entry member
    obtain ⟨origin, known, ran⟩ := each'.mem_right member
    exact identify_guarded proper (Entries.mem_outside.mp known).2 (clear _ known) ran

end EventSchema.Draft
