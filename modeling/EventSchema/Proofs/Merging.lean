import EventSchema.Proofs.Compilation
import EventSchema.Proofs.Contribution.Patch
import EventSchema.Proofs.Sources

/-!
The items of one kind on the way to the definitions.

Classes, objects and profiles are merged alike: those of each extension are stamped and put under scoped
keys after those of the base schema. References to profiles are written out and patches applied, which
changes a few fields of an item and never the extension that it is stamped with or the file it is from.
-/

set_option autoImplicit false

namespace EventSchema

def Contribution.items (c : Contribution) : ItemKind → Entries Fields
  | .eventClass => c.classes
  | .object => c.objects
  | .profile => c.profiles

def Definitions.items (d : Definitions) : ItemKind → Value
  | .eventClass => d.classes
  | .object => d.objects
  | .profile => d.profiles

namespace Compilation

def Sources.items (s : Sources) : ItemKind → Entries Fields
  | .eventClass => s.classes
  | .object => s.objects
  | .profile => s.profiles

/-- Items that are the same but for the fields that writing out and patching change. -/
abbrev Patched : Entries Fields → Entries Fields → Prop :=
  Entries.Related fun _ => Entries.SameBeside Patch.writtenKeys

theorem Patched.refl (items : Entries Fields) : Patched items items :=
  List.forall₂_same.mpr fun _ _ => ⟨rfl, .refl _ _⟩

theorem Patched.onward {first middle last : Entries Fields} (one : Patched first middle)
    (two : Patched middle last) : Patched first last :=
  (Entries.Related.trans one two).imp fun _ _ _ ⟨_, before, after⟩ => before.trans after

private theorem sameBeside_writeOutItem {c : Contribution} {item result : Fields}
    (ran : Contribution.writeOutItem c item = .ok result) :
    Entries.SameBeside Patch.writtenKeys item result := by
  obtain ⟨listed, shape, ended⟩ := Contribution.writeOutItem_ok ran
  have start := Entries.SameBeside.refl Patch.writtenKeys item
  have profiled : Entries.SameBeside Patch.writtenKeys item listed := by
    rcases shape with rfl | ⟨written, rfl⟩
    · exact start
    · exact start.put (by decide) _
  rcases ended with ⟨rfl, _⟩ | ⟨_, _, written, _, _, _, rfl⟩
  · exact profiled
  · exact profiled.put (by decide) _

private theorem patched_writeOut {c : Contribution} {items results : Entries Fields}
    (ran : Contribution.writeOut c items = .ok results) : Patched items results :=
  (Entries.mapM_eq_ok.mp ran).imp fun _ _ _ written => sameBeside_writeOutItem written

def stampedItems (kind : ItemKind) (c : Contribution) : Entries Fields :=
  Entries.mapValues (Contribution.stampFields c.extension) (c.items kind)

private theorem patched_prepare {c prepared : Contribution} (prepares : (prepare c).Yields prepared)
    (kind : ItemKind) : Patched (stampedItems kind c) (prepared.items kind) := by
  obtain ⟨stamped, _, _, _, _, stamps, classes, _, objects, _, rfl⟩ := Contribution.prepare_ok prepares
  obtain ⟨_, _, _, _, _, _, _, _, _, _, rfl⟩ := Contribution.stamped_ok stamps
  cases kind with
  | eventClass => exact patched_writeOut classes
  | object => exact patched_writeOut objects
  | profile => exact .refl _

theorem related_addScoped {α β : Type} {e : Extension} {relation : Text → α → β → Prop}
    (free : ∀ key other item result, relation key item result → relation other item result)
    {base new : Entries α} {base' new' : Entries β} (old : Entries.Related relation base base')
    (given : Entries.Related relation new new') :
    Entries.Related relation (addScoped e base new) (addScoped e base' new') := by
  unfold addScoped
  induction given generalizing base base' with
  | nil => exact old
  | @cons entry result new new' first later ih =>
      rw [List.foldl_cons, List.foldl_cons, first.1]
      exact ih (old.put (free _ _ _ _ first.2))

def withStamped (kind : ItemKind) (items : Entries Fields) (contributions : List Contribution) :
    Entries Fields :=
  contributions.foldl (fun items c => addScoped c.extension items (stampedItems kind c)) items

theorem items_add {s added : Sources} {c : Contribution} (ran : (s.add c).Yields added) (kind : ItemKind) :
    added.items kind = addScoped c.extension (s.items kind) (c.items kind) := by
  obtain ⟨_, _, _, _, rfl⟩ := Sources.add_ok ran
  cases kind <;> rfl

private theorem patched_merge (kind : ItemKind) {contributions prepared : List Contribution} {s sources : Sources}
    {items : Entries Fields}
    (ready : List.Forall₂ (fun c p => (prepare c).Yields p) contributions prepared)
    (merging : (prepared.foldlM Sources.add s).Yields sources) (start : Patched items (s.items kind)) :
    Patched (withStamped kind items contributions) (sources.items kind) := by
  induction ready generalizing s items with
  | nil => exact Act.yields_pure.mp merging ▸ start
  | @cons c first contributions prepared prepares _ ih =>
      rw [List.foldlM_cons] at merging
      obtain ⟨middle, adding, merging⟩ := Act.yields_bind merging
      refine ih merging ?_
      rw [items_add adding kind, Contribution.extension_prepare prepares]
      exact related_addScoped (fun _ _ _ _ held => held) start (patched_prepare prepares kind)

/-- The graph is built of the items of the base schema and those of the extensions, stamped, written out
and patched. -/
theorem Steps.patched_items {c : Compilation} {graph : Graph} (steps : Steps c graph) (kind : ItemKind) :
    ∃ items, steps.definitions.items kind = .record (Entries.mapValues Value.record items) ∧
      Patched (withStamped kind (steps.base.items kind) steps.contributions) items := by
  obtain ⟨classes, objects, inClasses, inObjects, same⟩ := Sources.definitions_ok steps.defining
  have merged := patched_merge kind (Act.yields_mapM steps.preparing) steps.merging (.refl _)
  rw [same]
  cases kind with
  | eventClass => exact ⟨classes, rfl, merged.onward (Patch.related_applyAll inClasses)⟩
  | object => exact ⟨objects, rfl, merged.onward (Patch.related_applyAll inObjects)⟩
  | profile => exact ⟨steps.sources.profiles, rfl, merged⟩

end Compilation

end EventSchema
