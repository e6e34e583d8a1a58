import EventSchema.Proofs.Contribution.Patched
import EventSchema.Proofs.Sources

/-!
The sources of a schema with and without one patch.

Leaving out the patch of an object changes what one extension contributes, and nothing else of it. Once
everything is merged, the patches of the other objects are the same in both ways, and those of the object
differ in that one.
-/

set_option autoImplicit false

namespace EventSchema

open Value

/-! ### One contribution -/

def Contribution.leavingOut (key : Text) (c : Contribution) : Contribution :=
  { c with objectPatches := Entries.erase key c.objectPatches }

def Contribution.LeavesOut (key : Text) (touched : List Text) (c other : Contribution) : Prop :=
  other = c ∨ other = c.leavingOut key ∧ ∀ patch ∈ Entries.get? key c.objectPatches,
    ∀ name ∈ Entries.keys (Entries.attributes patch), name ∈ touched

namespace Contribution

variable {c prepared : Contribution} {key : Text}

private theorem erase_mapValues {α β : Type} (f : α → β) (key : Text) (entries : Entries α) :
    Entries.erase key (Entries.mapValues f entries) = Entries.mapValues f (Entries.erase key entries) :=
  List.filter_map

private theorem stamped_leavingOut {stamped other : Contribution} (stamps : c.stamped = .ok stamped)
    (stamps' : (c.leavingOut key).stamped = .ok other) : other = stamped.leavingOut key := by
  obtain ⟨_, _, _, _, _, opened, attributes, types, listed, counted, rfl⟩ := stamped_ok stamps
  obtain ⟨_, _, _, _, _, opened', attributes', types', listed', counted', rfl⟩ := stamped_ok stamps'
  cases opened.symm.trans opened'
  cases attributes.symm.trans attributes'
  cases types.symm.trans types'
  cases listed.symm.trans listed'
  cases counted.unique counted' fun _ _ _ _ left right => Except.ok.inj (left.symm.trans right)
  unfold leavingOut
  dsimp only
  rw [erase_mapValues]

private theorem writeOut_erase {items results : Entries Fields} (written : writeOut c items = .ok results) :
    writeOut c (Entries.erase key items) = .ok (Entries.erase key results) :=
  Entries.mapM_eq_ok.mpr ((Entries.mapM_eq_ok.mp written).filter fun name => name ≠ key)

/-- A patch that is left out is all that is missing once the contribution is prepared. -/
theorem prepare_leavingOut {other : Contribution} (ran : (Compilation.prepare c).Yields prepared)
    (ran' : (Compilation.prepare (c.leavingOut key)).Yields other) : other = prepared.leavingOut key := by
  obtain ⟨stamped, classes, classPatches, objects, objectPatches, stamps, one, two, three, four, rfl⟩ :=
    prepare_ok ran
  obtain ⟨stamped', classes', classPatches', objects', objectPatches', stamps', one', two', three', four',
    rfl⟩ := prepare_ok ran'
  cases stamped_leavingOut stamps stamps'
  cases one.symm.trans one'
  cases two.symm.trans two'
  cases three.symm.trans three'
  cases (writeOut_erase four).symm.trans four'
  rfl

/-! ### One patch -/

private theorem marked_profileReference {t : Nat → Prop} {profile reference : Value} (marked : Marked t profile)
    (refers : profileReference c profile = .ok reference) : Marked t reference := by
  unfold profileReference at refers
  obtain ⟨slashed, _, refers⟩ := bind_eq_ok.mp refers
  cases slashed with
  | true => exact pure_eq_ok.mp refers ▸ marked
  | false =>
      obtain ⟨own, _, refers⟩ := bind_eq_ok.mp refers
      cases own with
      | true => exact pure_eq_ok.mp refers ▸ marked_of_leaf rfl
      | false => exact pure_eq_ok.mp refers ▸ marked

/-- Writing out the profiles of an item leaves the names of its attributes, and no two of them come to share
anything. -/
theorem attributes_writeOutItem {item result : Fields} (written : writeOutItem c item = .ok result) :
    Entries.keys (Entries.attributes result) = Entries.keys (Entries.attributes item) ∧
      ∀ names, Independent names (Entries.attributes item) → Independent names (Entries.attributes result) := by
  obtain ⟨listed, shape, attributes⟩ := writeOutItem_ok written
  have same : Entries.attributes listed = Entries.attributes item := by
    rcases shape with rfl | ⟨profiles, rfl⟩
    · rfl
    · exact Entries.attributes_put_of_ne (by decide) _ _
  rcases attributes with ⟨rfl, _⟩ | ⟨attributes, fields, each, given, opened, each_ok, rfl⟩
  · rw [same]
    exact ⟨rfl, fun _ => id⟩
  · have own : Entries.attributes item = fields := by
      rw [← same]
      refine Entries.attributes_of_orNull ?_
      rw [Entries.orNull, Entries.getOr, given]
      exact opened
    have related := Entries.mapM_eq_ok.mp each_ok
    rw [Entries.attributes_put_record, own]
    refine ⟨related.keys_eq, fun names independent => independent.related
      (related.imp fun _ value result one t marked => ?_)⟩
    rcases writeOutAttribute_ok one with same | ⟨mark, inner, profile, reference, rfl, held, refers, same⟩
    · rw [same]
      exact marked
    · rw [same]
      obtain ⟨own, inside⟩ := marked_object.mp marked
      exact marked_object.mpr ⟨own, inside.put (marked_profileReference (inside.of_get? held) refers) _⟩

theorem attributes_stampFields (e : Extension) (item : Fields) :
    Entries.attributes (stampFields e item) = Entries.attributes item := by
  unfold stampFields
  rw [Entries.attributes_put_of_ne (by decide), Entries.attributes_put_of_ne (by decide)]

/-- An item that is stamped and written out has attributes of the same names, and no two of them come to
share anything. -/
theorem attributes_written {e : Extension} {items results : Entries Fields}
    (written : writeOut c (Entries.mapValues (stampFields e) items) = .ok results) {name : Text} {result : Fields}
    (found : Entries.get? name results = some result) :
    ∃ item, Entries.get? name items = some item ∧
      Entries.keys (Entries.attributes result) = Entries.keys (Entries.attributes item) ∧
      ∀ names, Independent names (Entries.attributes item) → Independent names (Entries.attributes result) := by
  obtain ⟨stamped, known, one⟩ := (Entries.mapM_eq_ok.mp written).get?_right found
  rw [Entries.get?_mapValues] at known
  obtain ⟨item, held, rfl⟩ := Option.map_eq_some_iff.mp known
  refine ⟨item, held, ?_⟩
  rw [← attributes_stampFields e item]
  exact attributes_writeOutItem one

theorem attributes_prepared (ran : (Compilation.prepare c).Yields prepared) {name : Text} {result : Fields} :
    (Entries.get? name prepared.objects = some result → ∃ item, Entries.get? name c.objects = some item ∧
      ∀ names, Independent names (Entries.attributes item) → Independent names (Entries.attributes result)) ∧
    (Entries.get? name prepared.objectPatches = some result →
      ∃ item, Entries.get? name c.objectPatches = some item ∧
        Entries.keys (Entries.attributes result) = Entries.keys (Entries.attributes item) ∧
        ∀ names, Independent names (Entries.attributes item) → Independent names (Entries.attributes result)) := by
  obtain ⟨stamped, _, _, objects, patches, stamps, _, _, three, four, rfl⟩ := prepare_ok ran
  obtain ⟨_, _, _, _, _, _, _, _, _, _, rfl⟩ := stamped_ok stamps
  refine ⟨fun found => ?_, attributes_written four⟩
  obtain ⟨item, held, _, independent⟩ := attributes_written three found
  exact ⟨item, held, independent⟩

end Contribution

/-! ### The sources -/

namespace Compilation

theorem get?_addPatches {patches : Patches} {new : Entries Fields} (distinct : Entries.Distinct new) (name : Text) :
    (Entries.get? name (addPatches patches new)).getD [] =
      (Entries.get? name patches).getD [] ++ (Entries.get? name new).toList := by
  unfold addPatches
  induction new generalizing patches with
  | nil => exact (List.append_nil _).symm
  | cons head rest ih =>
      obtain ⟨fresh, others⟩ := List.nodup_cons.mp distinct
      rw [List.foldl_cons, ih others, Entries.get?_cons, Patches.add, Entries.get?_put]
      by_cases own : head.1 = name
      · subst own
        rw [if_pos rfl, if_pos rfl, Entries.get?_eq_none_iff.mpr fresh, Option.toList_none,
          List.append_nil]
        rfl
      · rw [if_neg (Ne.symm own), if_neg own]

private theorem distinct_addPatches {patches : Patches} (distinct : Entries.Distinct patches) (new : Entries Fields) :
    Entries.Distinct (addPatches patches new) := by
  unfold addPatches
  induction new generalizing patches with
  | nil => exact distinct
  | cons head rest ih => exact ih (distinct.put _ _)

theorem get?_addScoped {e : Extension} {base new : Entries Fields} {key : Text} {item : Fields}
    (found : Entries.get? key (addScoped e base new) = some item) :
    Entries.get? key base = some item ∨ ∃ entry ∈ new, Scope.within e.name entry.1 = key ∧ entry.2 = item := by
  unfold addScoped at found
  induction new generalizing base with
  | nil => exact Or.inl found
  | cons head rest ih =>
      rcases ih found with known | ⟨entry, member, rest⟩
      · rw [Entries.get?_put] at known
        split at known
        · rename_i own
          exact Or.inr ⟨head, List.mem_cons_self .., own.symm, Option.some.inj known⟩
        · exact Or.inl known
      · exact Or.inr ⟨entry, List.mem_cons_of_mem _ member, rest⟩

structure Sources.LeavesOut (key : Text) (touched : List Text) (s other : Sources) : Prop where
  same : ∃ patches, other = { s with objectPatches := patches }
  distinct : Entries.Distinct s.objectPatches
  distinct' : Entries.Distinct other.objectPatches
  elsewhere : ∀ name ≠ key, (Entries.get? name other.objectPatches).getD [] =
    (Entries.get? name s.objectPatches).getD []
  own : ∃ patches others, List.Forall₂ (Patch.LeftOut touched) patches others ∧
    (Entries.get? key s.objectPatches).getD [] = patches.filterMap id ∧
    (Entries.get? key other.objectPatches).getD [] = others.filterMap id

namespace Sources.LeavesOut

variable {key : Text} {touched : List Text} {s other added added' : Sources}

theorem unpatched {s : Sources} (none : s.objectPatches = []) (key : Text) (touched : List Text) :
    LeavesOut key touched s s where
  same := ⟨s.objectPatches, rfl⟩
  distinct := none ▸ .nil
  distinct' := none ▸ .nil
  elsewhere := fun _ _ => rfl
  own := ⟨[], [], .nil, none ▸ rfl, none ▸ rfl⟩

theorem add (leaves : LeavesOut key touched s other) {c c' : Contribution}
    (between : Contribution.LeavesOut key touched c c') (patches : Entries.Distinct c.objectPatches)
    (ran : (s.add c).Yields added) (ran' : (other.add c').Yields added') : LeavesOut key touched added added' := by
  obtain ⟨⟨left, rfl⟩, distinct, distinct', elsewhere, places, others, aligned, own, own'⟩ := leaves
  have unnamed (name : Text) (ne : name ≠ key) :
      Entries.get? name c'.objectPatches = Entries.get? name c.objectPatches := by
    rcases between with rfl | ⟨rfl, _⟩
    · rfl
    · rw [Contribution.leavingOut, Entries.get?_erase, if_neg ne]
  have last : Patch.LeftOut touched (Entries.get? key c.objectPatches) (Entries.get? key c'.objectPatches) := by
    rcases between with rfl | ⟨rfl, named⟩
    · exact Or.inl rfl
    · refine Or.inr ⟨?_, named⟩
      rw [Contribution.leavingOut, Entries.get?_erase, if_pos rfl]
  have patches' : Entries.Distinct c'.objectPatches := by
    rcases between with rfl | ⟨rfl, _⟩
    · exact patches
    · exact patches.erase key
  have shape : ∃ given, c' = { c with objectPatches := given } := by
    rcases between with rfl | ⟨rfl, _⟩
    · exact ⟨_, rfl⟩
    · exact ⟨_, rfl⟩
  clear between
  obtain ⟨given, rfl⟩ := shape
  obtain ⟨categories, dictionary, listed, extended, rfl⟩ := Sources.add_ok ran
  obtain ⟨categories', dictionary', listed', extended', rfl⟩ := Sources.add_ok ran'
  cases listed.symm.trans listed'
  cases Contribution.agree_extendDictionary c s.dictionary _ _ extended extended'
  exact {
    same := ⟨_, rfl⟩
    distinct := distinct_addPatches distinct _
    distinct' := distinct_addPatches distinct' _
    elsewhere := fun name ne => by
      rw [get?_addPatches patches', get?_addPatches patches, elsewhere name ne]
      exact congrArg _ (congrArg _ (unnamed name ne))
    own := by
      refine ⟨places ++ [Entries.get? key c.objectPatches], others ++ [Entries.get? key given],
        List.rel_append aligned (List.Forall₂.cons last .nil), ?_, ?_⟩
      · rw [get?_addPatches patches, own, List.filterMap_append]
        cases Entries.get? key c.objectPatches <;> rfl
      · rw [get?_addPatches patches', own', List.filterMap_append]
        cases Entries.get? key given <;> rfl }

theorem merge (leaves : LeavesOut key touched s other) {contributions others : List Contribution}
    (between : List.Forall₂ (Contribution.LeavesOut key touched) contributions others)
    (patches : ∀ c ∈ contributions, Entries.Distinct c.objectPatches)
    (ran : (contributions.foldlM Sources.add s).Yields added)
    (ran' : (others.foldlM Sources.add other).Yields added') : LeavesOut key touched added added' := by
  induction between generalizing s other with
  | nil =>
      cases Act.yields_pure.mp ran
      cases Act.yields_pure.mp ran'
      exact leaves
  | @cons c c' rest rest' first _ ih =>
      obtain ⟨distinct, each⟩ := List.forall_mem_cons.mp patches
      rw [List.foldlM_cons] at ran ran'
      obtain ⟨middle, one, ran⟩ := Act.yields_bind ran
      obtain ⟨middle', two, ran'⟩ := Act.yields_bind ran'
      exact ih (leaves.add first distinct one two) each ran ran'

end Sources.LeavesOut

end Compilation

end EventSchema
