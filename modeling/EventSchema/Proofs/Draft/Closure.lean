import EventSchema.Proofs.Draft.Profiles
import EventSchema.Proofs.Draft.Reach
import EventSchema.Proofs.Scope

/-!
The profiles of the items once they are closed.

Objects are closed one after another, and each sees the profiles of the others as they are by then:
some closed, some not, and some that refer back to it. In between, an object has at least its own
profiles and at most those of the objects that it can reach. So what an object gathers is always the
same: the profiles that the objects in its reach had at first.
-/

set_option autoImplicit false

namespace EventSchema.Draft

open Value

def profilesAt (objects : Entries Fields) (key : Text) : List Value :=
  Entries.profiles ((Entries.get? key objects).getD [])

theorem profilesAt_of_get? {objects : Entries Fields} {key : Text} {object : Fields}
    (found : Entries.get? key objects = some object) :
    profilesAt objects key = Entries.profiles object := by
  rw [profilesAt, found, Option.getD_some]

private theorem profilesAt_put (objects : Entries Fields) (key other : Text) (object : Fields) :
    profilesAt (Entries.put key object objects) other =
      if other = key then Entries.profiles object else profilesAt objects other := by
  unfold profilesAt
  rw [Entries.get?_put]
  by_cases same : other = key
  · rw [if_pos same, if_pos same, Option.getD_some]
  · rw [if_neg same, if_neg same]

/-! ### Other profiles change no reference -/

theorem find?_congr {α β : Type} {left : Entries α} {right : Entries β}
    (keys : Entries.keys left = Entries.keys right) (name : Value) (scope : Option Value) :
    Scope.find? left name scope = Scope.find? right name scope := Scope.find?_of_has (Entries.has_congr keys) name scope

theorem objectTypeOf_of_has {left right : Draft} (attributes : left.attributes = right.attributes)
    (same : ∀ key, Entries.has key left.objects = Entries.has key right.objects) (entry : Text × Value) :
    objectTypeOf left entry = objectTypeOf right entry := by
  have found := Scope.find?_of_has same
  unfold objectTypeOf
  simp only [found, attributes]

theorem objectTypeOf_congr {left right : Draft} (attributes : left.attributes = right.attributes)
    (keys : Entries.keys left.objects = Entries.keys right.objects) (entry : Text × Value) :
    objectTypeOf left entry = objectTypeOf right entry :=
  objectTypeOf_of_has attributes (Entries.has_congr keys) entry

structure SameReferences (left right : Draft) : Prop where
  dictionary : left.attributes = right.attributes
  keys : Entries.keys left.objects = Entries.keys right.objects
  attributes : ∀ key object, Entries.get? key left.objects = some object →
    ∃ other, Entries.get? key right.objects = some other ∧
      Entries.attributes object = Entries.attributes other

theorem SameReferences.leads {left right : Draft} (same : SameReferences left right)
    {entry : Text × Value} {key : Text} : Leads left entry key ↔ Leads right entry key := by
  have type := objectTypeOf_congr same.dictionary same.keys entry
  have present : Entries.has key left.objects = Entries.has key right.objects := by
    rw [Bool.eq_iff_iff, Entries.has_iff_mem_keys, Entries.has_iff_mem_keys, same.keys]
  constructor
  · exact fun leads => ⟨type ▸ leads.type, leads.named, present ▸ leads.present⟩
  · exact fun leads => ⟨type ▸ leads.type, leads.named, present ▸ leads.present⟩

theorem SameReferences.refers {left right : Draft} (same : SameReferences left right)
    {key other : Text} (refers : Refers left key other) : Refers right key other := by
  obtain ⟨object, found, entry, member, leads⟩ := refers
  obtain ⟨counterpart, present, attributes⟩ := same.attributes key object found
  exact ⟨counterpart, present, entry, attributes ▸ member, same.leads.mp leads⟩

theorem SameReferences.symm {left right : Draft} (same : SameReferences left right) :
    SameReferences right left where
  dictionary := same.dictionary.symm
  keys := same.keys.symm
  attributes := by
    intro key object found
    have present : Entries.has key left.objects = true := by
      rw [Entries.has_iff_mem_keys, same.keys]
      exact Entries.mem_keys_of_get? found
    obtain ⟨other, held⟩ := Option.isSome_iff_exists.mp present
    obtain ⟨object', found', attributes⟩ := same.attributes key other held
    rw [found, Option.some.injEq] at found'
    exact ⟨other, held, found' ▸ attributes.symm⟩

theorem SameReferences.way {left right : Draft} (same : SameReferences left right)
    {key other : Text} (way : Relation.ReflTransGen (Refers left) key other) :
    Relation.ReflTransGen (Refers right) key other :=
  way.lift id fun _ _ => same.refers

/-! ### What one item gathers -/

/-- A profile comes from an object that an attribute leads to, directly or by way of others. -/
def Gathered (draft : Draft) (attributes : Fields) (profile : Value) : Prop :=
  ∃ entry ∈ attributes, ∃ key, Leads draft entry key ∧
    ∃ other, Relation.ReflTransGen (Refers draft) key other ∧
      profile ∈ profilesAt draft.objects other

private theorem itemsOrNone_orNull {object : Fields} {contents : List Value}
    (listed : itemsOrNone (some (Entries.orNull "profiles" object)) = .ok contents) :
    Entries.profiles object = contents := by
  unfold Entries.orNull Entries.getOr at listed
  unfold Entries.profiles
  cases found : Entries.get? "profiles" object with
  | none =>
      rw [found] at listed
      exact Except.ok.inj listed
  | some profiles =>
      rw [found, Option.getD_some] at listed
      rw [listed]

theorem closeProfiles_gathers {draft : Draft} {kind : ItemKind} {key : Text} {item closed : Fields}
    (itself : kind ≠ .eventClass → Entries.get? key draft.objects = some item)
    (ran : (closeProfiles draft kind key item).Yields closed) :
    (∀ profile ∈ Entries.profiles closed,
      profile ∈ Entries.profiles item ∨ Gathered draft (Entries.attributes item) profile) ∧
    (∀ profile ∈ Entries.profiles item, Held profile (Entries.profiles closed)) ∧
    ∀ profile, Gathered draft (Entries.attributes item) profile →
      Held profile (Entries.profiles closed) := by
  obtain ⟨reached, contents, walk, listed, profiles, _⟩ := closeProfiles_ok ran
  have walked := reach_ok walk
  rw [profiles]
  refine ⟨?_, ?_, ?_⟩
  · intro profile member
    rcases mem_of_mem_addNew member with none | member
    · cases none
    rcases List.mem_append.mp member with own | gathered
    · exact Or.inl own
    · obtain ⟨content, among, member⟩ := List.mem_flatten.mp gathered
      obtain ⟨entry, entered, told⟩ := exists_left_of_mem listed among
      rcases walked.sound entry entered with start | ⟨object, found, same, first, present, target, leads, way⟩
      · -- the item itself, which is on its own way, adds nothing
        have nothing : entry.2 = .null := by
          split at start
          · cases start
          · rw [List.mem_singleton.mp start]
        rw [nothing] at told
        rw [← Except.ok.inj told] at member
        cases member
      · right
        rw [same] at told
        refine ⟨first, present, target, leads, entry.1, way, ?_⟩
        rw [profilesAt_of_get? found, itemsOrNone_orNull told]
        exact member
  · intro profile member
    exact held_addNew (Or.inr (List.mem_append_left _ member))
  · rintro profile ⟨entry, member, first, leads, other, way, known⟩
    -- every object on the way is reached, whether it was entered or is the item itself
    have along : Entries.has other reached = true := by
      have begun := walked.entered entry member first leads
      clear known
      induction way with
      | refl => exact begun
      | @tail middle last _ refers ih =>
          by_cases start : kind = .eventClass
          · refine walked.closed middle ih ?_ last refers
            rw [if_pos start]
            rfl
          · by_cases same : middle = key
            · obtain ⟨object, found, entry, member, leads⟩ := refers
              rw [same, itself start, Option.some.injEq] at found
              exact walked.entered entry (found ▸ member) last leads
            · refine walked.closed middle ih ?_ last refers
              rw [if_neg start, Entries.has, Entries.get?_cons, if_neg (Ne.symm same)]
              rfl
    obtain ⟨value, found⟩ := Option.isSome_iff_exists.mp along
    have reachedIt := Entries.mem_of_get? found
    rcases walked.sound _ reachedIt with start | ⟨object, held, same, _⟩
    · split at start
      · cases start
      · rename_i notClass
        have same : other = key := congrArg Prod.fst (List.mem_singleton.mp start)
        rw [same, profilesAt_of_get? (itself notClass)] at known
        exact held_addNew (Or.inr (List.mem_append_left _ known))
    · obtain ⟨content, among, told⟩ := exists_right_of_mem listed reachedIt
      rw [same] at told
      rw [profilesAt_of_get? held, itemsOrNone_orNull told] at known
      refine held_addNew (Or.inr (List.mem_append_right _ ?_))
      exact List.mem_flatten.mpr ⟨content, among, known⟩

/-! ### All items, one after another -/

structure Closing (draft : Draft) (done : List Text) (objects : Entries Fields) : Prop where
  same : SameReferences { draft with objects } draft
  own : ∀ key, ∀ profile ∈ profilesAt draft.objects key, Held profile (profilesAt objects key)
  sound : ∀ key, ∀ profile ∈ profilesAt objects key,
    ∃ other, Relation.ReflTransGen (Refers draft) key other ∧
      profile ∈ profilesAt draft.objects other
  closed : ∀ key ∈ done, ∀ other, Relation.ReflTransGen (Refers draft) key other →
    ∀ profile ∈ profilesAt draft.objects other, Held profile (profilesAt objects key)

namespace Closing

variable {draft : Draft} {done : List Text} {objects : Entries Fields} {key : Text}

theorem start (draft : Draft) : Closing draft [] draft.objects where
  same := ⟨rfl, rfl, fun _ object found => ⟨object, found, rfl⟩⟩
  own _ _ member := held_of_mem member
  sound key _ member := ⟨key, .refl, member⟩
  closed _ none := absurd none List.not_mem_nil

theorem skip (closing : Closing draft done objects) (absent : Entries.get? key objects = none) :
    Closing draft (done ++ [key]) objects where
  same := closing.same
  own := closing.own
  sound := closing.sound
  closed := by
    intro other member target way profile known
    rcases List.mem_append.mp member with before | single
    · exact closing.closed other before target way profile known
    · have unknown : Entries.get? key draft.objects = none := by
        rw [Entries.get?_eq_none_iff] at absent ⊢
        exact closing.same.keys ▸ absent
      rw [List.mem_singleton.mp single] at way ⊢
      rcases Relation.ReflTransGen.cases_head way with here | ⟨_, ⟨object, found, _⟩, _⟩
      · exact closing.own key profile (here ▸ known)
      · rw [unknown] at found
        cases found

theorem step (closing : Closing draft done objects) {item result : Fields}
    (found : Entries.get? key objects = some item)
    (ran : (closeProfiles { draft with objects } .object key item).Yields result) :
    Closing draft (done ++ [key]) (Entries.put key result objects) := by
  obtain ⟨upper, kept, lower⟩ := closeProfiles_gathers (fun _ => found) ran
  have attributes := attributes_closeProfiles ran
  have itself : profilesAt objects key = Entries.profiles item := profilesAt_of_get? found
  constructor
  · refine ⟨rfl, ?_, ?_⟩
    · rw [Entries.keys_put, if_pos (Entries.has_iff_mem_keys.mpr (Entries.mem_keys_of_get? found))]
      exact closing.same.keys
    · intro other object held
      rw [Entries.get?_put] at held
      by_cases same : other = key
      · rw [if_pos same, Option.some.injEq] at held
        rw [same, ← held, attributes]
        exact closing.same.attributes key item found
      · rw [if_neg same] at held
        exact closing.same.attributes other object held
  · intro other profile known
    have held := closing.own other profile known
    rw [profilesAt_put]
    split
    · rename_i same
      rw [same, itself] at held
      exact held.trans kept
    · exact held
  · intro other profile known
    rw [profilesAt_put] at known
    split at known
    · rename_i same
      rw [same]
      rcases upper profile known with old | ⟨entry, member, first, leads, last, way, gathered⟩
      · exact closing.sound key profile (itself ▸ old)
      · obtain ⟨origin, beyond, original⟩ := closing.sound last profile gathered
        have refers := closing.same.refers ⟨item, found, entry, member, leads⟩
        exact ⟨origin, .head refers ((closing.same.way way).trans beyond), original⟩
    · exact closing.sound other profile known
  · intro other member target way profile known
    have held := closing.own target profile known
    rw [profilesAt_put]
    split
    · rename_i same
      rw [same] at way
      rcases Relation.ReflTransGen.cases_head way with here | ⟨middle, refers, beyond⟩
      · rw [← here, itself] at held
        exact held.trans kept
      · refine held.trans fun gathered among => lower gathered ?_
        obtain ⟨object, present, entry, inside, leads⟩ := closing.same.symm.refers refers
        rw [found, Option.some.injEq] at present
        exact ⟨entry, present ▸ inside, middle, leads, target, closing.same.symm.way beyond, among⟩
    · rename_i other'
      rcases List.mem_append.mp member with before | single
      · exact closing.closed other before target way profile known
      · exact absurd (List.mem_singleton.mp single) other'

end Closing

theorem closeAllProfiles_closed {draft closed : Draft} (ran : draft.closeAllProfiles.Yields closed) :
    Entries.keys closed.objects = Entries.keys draft.objects ∧
    (∀ key object, Entries.get? key closed.objects = some object →
      ∀ entry ∈ Entries.attributes object, ∀ other, Leads closed entry other →
        ∀ profile ∈ profilesAt closed.objects other, Held profile (Entries.profiles object)) ∧
    ∀ entity ∈ closed.classes, ∀ entry ∈ Entries.attributes entity.2,
      ∀ other, Leads closed entry other →
        ∀ profile ∈ profilesAt closed.objects other, Held profile (Entries.profiles entity.2) := by
  obtain ⟨objects, classes, same, closing, each⟩ := closeAllProfiles_ok
    (motive := Closing draft) ran (Closing.start draft)
    (fun _ _ _ _ _ closing found closed => closing.step found closed)
    (fun _ _ _ closing absent => closing.skip absent)
  have leadsBefore {entry : Text × Value} {other : Text} (leads : Leads closed entry other) :
      Leads { draft with objects } entry other := by
    rw [same] at leads
    exact ⟨leads.type, leads.named, leads.present⟩
  rw [same]
  refine ⟨closing.same.keys, ?_, ?_⟩
  · intro key object found entry member other leads profile known
    obtain ⟨origin, way, original⟩ := closing.sound other profile known
    have refers := closing.same.refers ⟨object, found, entry, member, leadsBefore (same ▸ leads)⟩
    have treated : key ∈ Entries.keys draft.objects := by
      rw [← closing.same.keys]
      exact Entries.mem_keys_of_get? found
    have held := closing.closed key treated origin (.head refers way) profile original
    rw [profilesAt_of_get? found] at held
    exact held
  · intro entity present entry member other leads profile known
    obtain ⟨item, _, ran⟩ := each.mem_right present
    obtain ⟨_, _, lower⟩ := closeProfiles_gathers (fun impossible => absurd rfl impossible) ran
    rw [attributes_closeProfiles ran] at member
    exact lower profile ⟨entry, member, other, leadsBefore (same ▸ leads), other, .refl, known⟩

end EventSchema.Draft
