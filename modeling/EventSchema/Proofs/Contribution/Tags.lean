import EventSchema.Proofs.Contribution.LeftOut
import EventSchema.Proofs.Documents
import EventSchema.Proofs.Draft.Without
import EventSchema.Proofs.Merging
import EventSchema.Proofs.Value.Told

/-!
What becomes of the profile that an attribute says it is of.

In an item of an extension the name is written out: one of the extension's own profiles if there is one of
that name, and otherwise it stays. Patches that say nothing of it leave it alone.
-/

set_option autoImplicit false

namespace EventSchema

open Value

variable {name field : Text} {told : Option Value}

namespace Contribution

variable {c : Contribution} {item result : Fields}

/-- The key of the profile that a name stands for in an extension. -/
def meant (c : Contribution) (name : Text) : Text :=
  if name.hasSlash = false ∧ Entries.has name c.profiles = true then Scope.within c.extension.name name
  else name

private theorem profileReference_text (c : Contribution) (name : Text) :
    profileReference c (.text name) = .ok (.text (c.meant name)) := by
  unfold profileReference meant
  rw [member, Text.contains_slash, ok_bind]
  cases name.hasSlash with
  | true => rfl
  | false =>
      change (if Entries.has name c.profiles = true then _ else _) = _
      cases Entries.has name c.profiles with
      | true => rfl
      | false => rfl

private theorem related_writeOutItem (ran : writeOutItem c item = .ok result) :
    Entries.Related (fun _ value written => writeOutAttribute c value = .ok written)
      (Entries.attributes item) (Entries.attributes result) := by
  obtain ⟨listed, shape, ended⟩ := writeOutItem_ok ran
  have same : Entries.attributes listed = Entries.attributes item := by
    rcases shape with rfl | ⟨written, rfl⟩
    · rfl
    · exact Entries.attributes_put_of_ne (by decide) _ _
  rw [← same]
  rcases ended with ⟨rfl, none⟩ | ⟨attributes, fields, written, found, opened, each, rfl⟩
  · rw [none]
    exact .nil
  · obtain ⟨mark, rfl⟩ := inner_of_asFields opened
    rw [Entries.attributes_put_record, Entries.attributes, found]
    exact Entries.mapM_eq_ok.mp each

private theorem told_writeOutAttribute {value written : Value} {profile : Text}
    (named : (Value.text profile).truthy = true) (holds : Told "profile" (some (.text profile)) value)
    (ran : writeOutAttribute c value = .ok written) :
    Told "profile" (some (.text (c.meant profile))) written := by
  obtain ⟨fields, rfl, known⟩ := holds
  unfold writeOutAttribute record at ran
  dsimp only at ran
  rw [known] at ran
  dsimp only at ran
  rw [if_pos named, profileReference_text, ok_bind] at ran
  exact ⟨_, (pure_eq_ok.mp ran).symm, Entries.get?_put_self ..⟩

private theorem untold_writeOutAttribute {value written : Value} (holds : Told "profile" none value)
    (ran : writeOutAttribute c value = .ok written) : written = value := by
  obtain ⟨fields, rfl, absent⟩ := holds
  unfold writeOutAttribute record at ran
  dsimp only at ran
  rw [absent] at ran
  exact (pure_eq_ok.mp ran).symm

theorem toldAt_writeOutItem {profile : Text} (named : (Value.text profile).truthy = true)
    (tells : ToldAt name "profile" (some (.text profile)) (Entries.attributes item))
    (ran : writeOutItem c item = .ok result) :
    ToldAt name "profile" (some (.text (c.meant profile))) (Entries.attributes result) := by
  obtain ⟨value, found, holds⟩ := tells
  obtain ⟨written, held, step⟩ := (related_writeOutItem ran).get?_left found
  exact ⟨written, held, told_writeOutAttribute named holds step⟩

private theorem silentAt_writeOutItem (silent : SilentAt name "profile" (Entries.attributes item))
    (ran : writeOutItem c item = .ok result) : SilentAt name "profile" (Entries.attributes result) := by
  intro written held
  obtain ⟨value, found, step⟩ := (related_writeOutItem ran).get?_right held
  rw [untold_writeOutAttribute (silent value found) step]
  exact silent value found

def patches (c : Contribution) : ItemKind → Entries Fields
  | .eventClass => c.classPatches
  | .object => c.objectPatches
  | .profile => []

/-- A patch that says nothing of the profile of an attribute comes from one that does not. -/
theorem silentAt_prepare {kind : ItemKind} {prepared : Contribution}
    (prepares : (Compilation.prepare c).Yields prepared) {key : Text}
    (silent : ∀ patch, (key, patch) ∈ c.patches kind → SilentAt name "profile" (Entries.attributes patch))
    {patch : Fields} (member : (key, patch) ∈ prepared.patches kind) :
    SilentAt name "profile" (Entries.attributes patch) := by
  obtain ⟨stamped, _, classPatches, _, objectPatches, stamps, _, two, _, four, rfl⟩ := prepare_ok prepares
  obtain ⟨_, _, _, _, _, _, _, _, _, _, rfl⟩ := stamped_ok stamps
  have written {owner : Contribution} {items results : Entries Fields} {e : Extension}
      (each : ∀ patch, (key, patch) ∈ items → SilentAt name "profile" (Entries.attributes patch))
      (ran : writeOut owner (Entries.mapValues (stampFields e) items) = .ok results)
      (member : (key, patch) ∈ results) : SilentAt name "profile" (Entries.attributes patch) := by
    obtain ⟨before, known, step⟩ := (Entries.mapM_eq_ok.mp ran).mem_right member
    obtain ⟨⟨_, own⟩, held, same⟩ := List.mem_map.mp known
    cases same
    refine silentAt_writeOutItem ?_ step
    rw [attributes_stampFields]
    exact each own held
  cases kind with
  | eventClass => exact written silent two member
  | object => exact written silent four member
  | profile => cases member

end Contribution

namespace Patch

variable {key : Text} {patch item result : Fields}

/-- A patch that says nothing of a field of an attribute leaves it. -/
theorem toldAt_applyTo (leaf : Leaf told) (unmarked : field ≠ "_source_patched") (given : Document patch)
    (silent : SilentAt name field (Entries.attributes patch))
    (tells : ToldAt name field told (Entries.attributes item)) (ran : applyTo key patch item = .ok result) :
    ToldAt name field told (Entries.attributes result) := by
  obtain ⟨patcher, listed, changes, attributes, patchers, _, shape, opened, written, rfl⟩ := applyTo_ok ran
  have same : Entries.attributes listed = Entries.attributes item := by
    rcases shape with rfl | ⟨joined, rfl⟩
    · rfl
    · exact Entries.attributes_put_of_ne (by decide) _ _
  have result : ∀ patchers, Entries.attributes (Entries.put "_patched_by" (.array patchers)
      (replaceConstraints patch (replacedKeys.foldl (replace patch)
        (Entries.put "attributes" attributes listed)))) = attributes.inner := by
    intro patchers
    rw [Entries.attributes_eq_inner, Entries.orEmpty, Entries.getOr, get?_attributes_patched, Option.getD_some]
  rw [result]
  rw [← same, Entries.attributes_eq_inner] at tells
  rcases written with ⟨_, rfl⟩ | ⟨fields, own, rfl⟩
  · exact tells
  · obtain ⟨mark, shape⟩ := inner_of_asFields own
    rw [shape] at tells
    rw [Lineage.attributes_of_fieldsOrNone opened] at silent
    have distinct := ((given.keyed.fieldsOrNone opened).shiftFields (boundFields listed)).distinct
    refine ToldAt.overlay leaf tells (distinct.mapValues _) ?_
    refine (silent.renewed (renews_shift _)).mapValues ?_
    rintro _ ⟨own, rfl, absent⟩
    exact ⟨_, rfl, by rw [Entries.get?_put_of_ne (Ne.symm unmarked), absent]⟩

theorem toldAt_applyAll {kind : ItemKind} {patches : Patches} {items patched : Entries Fields}
    (leaf : Leaf told) (unmarked : field ≠ "_source_patched") (documents : DocumentPatches patches)
    (silent : ∀ entry ∈ patches, ∀ patch ∈ entry.2, entry.1 = key →
      SilentAt name field (Entries.attributes patch))
    (ran : (applyAll kind items patches).Yields patched)
    (tells : ∃ item, Entries.get? key items = some item ∧ ToldAt name field told (Entries.attributes item)) :
    ∃ item, Entries.get? key patched = some item ∧ ToldAt name field told (Entries.attributes item) := by
  let Holds (items : Entries Fields) : Prop :=
    ∃ item, Entries.get? key items = some item ∧ ToldAt name field told (Entries.attributes item)
  refine Act.foldlM_keeps (motive := Holds) ran tells fun items entry next member tells step => ?_
  refine Act.foldlM_keeps (motive := Holds) step tells fun items patch next known tells step => ?_
  rcases apply_ok step with ⟨_, rfl⟩ | ⟨item, result, found, _, one, rfl⟩
  · exact tells
  · obtain ⟨before, held, holds⟩ := tells
    by_cases here : entry.1 = key
    · subst here
      cases found.symm.trans held
      exact ⟨result, Entries.get?_put_self .., toldAt_applyTo leaf unmarked (documents entry member patch known)
        (silent entry member patch known rfl) holds one⟩
    · exact ⟨before, (Entries.get?_put_of_ne here ..).trans held, holds⟩

end Patch

end EventSchema
