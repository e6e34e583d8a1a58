import EventSchema.Proofs.Draft.Closure
import EventSchema.Proofs.Graph.Steady

/-!
Profiles are consolidated to what the references reach.

Consolidating comes to an end whatever the references are. It leaves an item with its own profiles first,
in their order, and then those that the objects in its reach had before anything was consolidated, each
once. So it does not matter in which order the objects are taken, though each sees the others as they are
by then.
-/

set_option autoImplicit false

namespace EventSchema.Draft

open Value

variable {draft closed : Draft} {item result : Fields} {key : Text}

def Reaches (draft : Draft) (item : Fields) (key : Text) : Prop :=
  ∃ entry ∈ Entries.attributes item, ∃ first, Leads draft entry first ∧
    Relation.ReflTransGen (Refers draft) first key

theorem Reaches.of_way {other : Text} (found : Entries.get? key draft.objects = some item)
    (way : Relation.ReflTransGen (Refers draft) key other) : other = key ∨ Reaches draft item other := by
  rcases Relation.ReflTransGen.cases_head way with same | ⟨middle, ⟨object, held, entry, member, leads⟩, beyond⟩
  · exact .inl same.symm
  · cases found.symm.trans held
    exact .inr ⟨entry, member, middle, leads, beyond⟩

theorem Reaches.way {other : Text} (found : Entries.get? key draft.objects = some item)
    (reaches : Reaches draft item other) : Relation.ReflTransGen (Refers draft) key other := by
  obtain ⟨entry, member, first, leads, way⟩ := reaches
  exact .head ⟨item, found, entry, member, leads⟩ way

structure Consolidated (draft : Draft) (item result : Fields) : Prop where
  frame : ∀ field : Text, field ≠ "profiles" → Entries.get? field result = Entries.get? field item
  apart : Apart (Entries.profiles result)
  starts : addNew [] (Entries.profiles item) <+: Entries.profiles result
  exact : ∀ profile : Value, profile.isIn (Entries.profiles result) = true ↔
    profile.isIn (Entries.profiles item) = true ∨
      ∃ key, Reaches draft item key ∧ profile.isIn (profilesAt draft.objects key) = true

/-! ### What one step keeps -/

/-- An item that was treated or not yet: its own profiles come first, and none twice once it was. -/
structure Started (treated : Prop) (item result : Fields) : Prop where
  frame : ∀ field : Text, field ≠ "profiles" → Entries.get? field result = Entries.get? field item
  starts : addNew [] (Entries.profiles item) <+: addNew [] (Entries.profiles result)
  apart : treated → Apart (Entries.profiles result)

theorem Started.refl (item : Fields) {treated : Prop} (untreated : ¬treated) : Started treated item item :=
  ⟨fun _ _ => rfl, List.prefix_rfl, fun impossible => absurd impossible untreated⟩

theorem Started.trans {treated later : Prop} {middle : Fields} (first : Started treated item middle)
    (second : Started later middle result) : Started later item result where
  frame field other := (second.frame field other).trans (first.frame field other)
  starts := first.starts.trans second.starts
  apart := second.apart

private theorem addNew_nil_of_apart {items : List Value} (apart : Apart items) : addNew [] items = items :=
  addNew_of_apart (List.nil_append items ▸ apart)

private theorem started_closeProfiles {kind : ItemKind} {treated : Prop}
    (ran : (closeProfiles draft kind key item).Yields result) : Started treated item result := by
  obtain ⟨_, contents, _, _, profiles, frame⟩ := closeProfiles_ok ran
  have apart : Apart (Entries.profiles result) := profiles ▸ Apart.addNew List.Pairwise.nil _
  refine ⟨frame, ?_, fun _ => apart⟩
  rw [addNew_nil_of_apart apart, profiles, addNew_append]
  exact prefix_addNew _ _

structure Consolidating (draft : Draft) (done : List Text) (objects : Entries Fields) : Prop where
  closing : Closing draft done objects
  started : ∀ key item, Entries.get? key draft.objects = some item →
    ∃ result, Entries.get? key objects = some result ∧ Started (key ∈ done) item result

namespace Consolidating

variable {done : List Text} {objects : Entries Fields}

theorem start (draft : Draft) : Consolidating draft [] draft.objects where
  closing := .start draft
  started _ item found := ⟨item, found, .refl item List.not_mem_nil⟩

theorem skip (consolidating : Consolidating draft done objects) (absent : Entries.get? key objects = none) :
    Consolidating draft (done ++ [key]) objects where
  closing := consolidating.closing.skip absent
  started := by
    intro other item found
    obtain ⟨result, held, started⟩ := consolidating.started other item found
    refine ⟨result, held, started.frame, started.starts, fun member => started.apart ?_⟩
    refine (List.mem_append.mp member).resolve_right fun single => ?_
    rw [List.mem_singleton.mp single, absent] at held
    cases held

theorem step (consolidating : Consolidating draft done objects) {middle : Fields}
    (found : Entries.get? key objects = some middle)
    (ran : (closeProfiles { draft with objects } .object key middle).Yields result) :
    Consolidating draft (done ++ [key]) (Entries.put key result objects) where
  closing := consolidating.closing.step found ran
  started := by
    intro other item held
    obtain ⟨before, now, started⟩ := consolidating.started other item held
    rw [Entries.get?_put]
    by_cases same : other = key
    · rw [if_pos same]
      rw [same, found] at now
      cases now
      exact ⟨result, rfl, started.trans (started_closeProfiles ran)⟩
    · rw [if_neg same]
      refine ⟨before, now, started.frame, started.starts, fun member => started.apart ?_⟩
      exact (List.mem_append.mp member).resolve_right fun single => same (List.mem_singleton.mp single)

variable (consolidating : Consolidating draft done objects)
  (keys : ∀ key, ∀ profile ∈ profilesAt draft.objects key, profile.isKey = true)
include consolidating keys

theorem isKey_profiles : ∀ key, ∀ profile ∈ profilesAt objects key, profile.isKey = true := by
  intro key profile member
  obtain ⟨other, _, original⟩ := consolidating.closing.sound key profile member
  exact keys other profile original

private theorem consolidated (member : key ∈ done) (found : Entries.get? key draft.objects = some item) :
    ∃ result, Entries.get? key objects = some result ∧ Consolidated draft item result := by
  have closing := consolidating.closing
  obtain ⟨result, held, started⟩ := consolidating.started key item found
  have apart := started.apart member
  have at_ : profilesAt objects key = Entries.profiles result := profilesAt_of_get? held
  have own : profilesAt draft.objects key = Entries.profiles item := profilesAt_of_get? found
  have isKey := at_ ▸ consolidating.isKey_profiles keys key
  have starts := addNew_nil_of_apart apart ▸ started.starts
  refine ⟨result, held, started.frame, apart, starts, fun profile => ⟨?_, ?_⟩⟩
  · intro inside
    obtain ⟨first, among, equal⟩ := isIn_iff.mp inside
    obtain ⟨other, way, original⟩ := closing.sound key first (at_ ▸ among)
    have origin : profile.isIn (profilesAt draft.objects other) = true := isIn_iff.mpr ⟨first, original, equal⟩
    rcases Reaches.of_way found way with rfl | reaches
    · exact .inl (own ▸ origin)
    · exact .inr ⟨other, reaches, origin⟩
  · rintro (inside | ⟨other, reaches, inside⟩)
    · obtain ⟨first, among, equal⟩ := isIn_iff.mp inside
      exact ((at_ ▸ closing.own key first (own ▸ among)).of_same equal).isIn isKey
    · obtain ⟨first, among, equal⟩ := isIn_iff.mp inside
      exact ((at_ ▸ closing.closed key member other (reaches.way found) first among).of_same equal).isIn isKey

theorem isKey_class (own : ∀ profile ∈ Entries.profiles item, profile.isKey = true)
    (ran : (closeProfiles { draft with objects } .eventClass key item).Yields result) :
    ∀ profile ∈ Entries.profiles result, profile.isKey = true := by
  obtain ⟨upper, _⟩ := closeProfiles_gathers (fun impossible => absurd rfl impossible) ran
  intro profile member
  rcases upper profile member with mine | ⟨_, _, _, _, other, _, known⟩
  · exact own profile mine
  · exact consolidating.isKey_profiles keys other profile known

private theorem consolidated_class (own : ∀ profile ∈ Entries.profiles item, profile.isKey = true)
    (ran : (closeProfiles { draft with objects } .eventClass key item).Yields result) :
    Consolidated draft item result := by
  have closing := consolidating.closing
  obtain ⟨upper, kept, lower⟩ := closeProfiles_gathers (fun impossible => absurd rfl impossible) ran
  have started : Started True item result := started_closeProfiles ran
  have apart := started.apart trivial
  have origin {entry : Text × Value} {first other : Text} {profile : Value}
      (member : entry ∈ Entries.attributes item) (leads : Leads { draft with objects } entry first)
      (way : Relation.ReflTransGen (Refers { draft with objects }) first other)
      (known : profile ∈ profilesAt objects other) :
      ∃ source, Reaches draft item source ∧ profile ∈ profilesAt draft.objects source := by
    obtain ⟨source, beyond, original⟩ := closing.sound other profile known
    have led := closing.same.leads.mp leads
    exact ⟨source, ⟨entry, member, first, led, (closing.same.way way).trans beyond⟩, original⟩
  have isKey := consolidating.isKey_class keys own ran
  refine ⟨started.frame, apart, addNew_nil_of_apart apart ▸ started.starts, fun profile => ⟨?_, ?_⟩⟩
  · intro inside
    obtain ⟨found, among, equal⟩ := isIn_iff.mp inside
    rcases upper found among with mine | ⟨entry, member, first, leads, other, way, known⟩
    · exact .inl (isIn_iff.mpr ⟨found, mine, equal⟩)
    · obtain ⟨origin, reaches, original⟩ := origin member leads way known
      exact .inr ⟨origin, reaches, isIn_iff.mpr ⟨found, original, equal⟩⟩
  · rintro (inside | ⟨other, ⟨entry, member, first, leads, way⟩, inside⟩)
    · obtain ⟨found, among, equal⟩ := isIn_iff.mp inside
      exact ((kept found among).of_same equal).isIn isKey
    · obtain ⟨found, among, equal⟩ := isIn_iff.mp inside
      have held : Held found (Entries.profiles result) :=
        (closing.own other found among).trans fun gathered known => lower gathered
          ⟨entry, member, first, closing.same.leads.mpr leads, other, closing.same.symm.way way, known⟩
      exact (held.of_same equal).isIn isKey

end Consolidating

structure ConsolidatesTo (draft closed : Draft) : Prop where
  others : closed = { draft with objects := closed.objects, classes := closed.classes }
  objects : Entries.Related (fun _ => Consolidated draft) draft.objects closed.objects
  classes : Entries.Related (fun _ => Consolidated draft) draft.classes closed.classes

theorem isKey_profilesAt {objects : Entries Fields}
    (keys : ∀ entry ∈ objects, ∀ profile ∈ Entries.profiles entry.2, profile.isKey = true) :
    ∀ key, ∀ profile ∈ profilesAt objects key, profile.isKey = true := by
  intro key profile member
  unfold profilesAt at member
  cases found : Entries.get? key objects with
  | none =>
      rw [found] at member
      cases member
  | some item =>
      rw [found] at member
      exact keys _ (Entries.mem_of_get? found) profile member

theorem consolidatesTo_of_yields (distinct : Entries.Distinct draft.objects)
    (keys : ∀ entry ∈ draft.objects, ∀ profile ∈ Entries.profiles entry.2, profile.isKey = true)
    (ofClasses : ∀ entry ∈ draft.classes, ∀ profile ∈ Entries.profiles entry.2, profile.isKey = true)
    (ran : draft.closeAllProfiles.Yields closed) : ConsolidatesTo draft closed := by
  obtain ⟨objects, classes, rfl, consolidating, each⟩ := closeAllProfiles_ok (motive := Consolidating draft) ran
    (.start draft) (fun _ _ _ _ _ consolidating found closed => consolidating.step found closed)
    (fun _ _ _ consolidating absent => consolidating.skip absent)
  have isKey := isKey_profilesAt keys
  refine ⟨rfl, Entries.related_of_get? consolidating.closing.same.keys.symm distinct fun key item found => ?_, ?_⟩
  · exact consolidating.consolidated isKey (Entries.mem_keys_of_get? found) found
  · refine each.imp_mem fun key item result member treated => ?_
    exact consolidating.consolidated_class isKey (ofClasses _ member) treated

/-! ### Consolidating comes to an end -/

/-- What an attribute refers to is a key, if it refers to anything. -/
def Follows (draft : Draft) (entry : Text × Value) : Prop :=
  ∃ type, objectTypeOf draft entry = .ok type ∧ (type.truthy = true → type.isKey = true)

structure Followable (draft : Draft) (item : Fields) : Prop where
  opened : attributesOf item = .ok (Entries.attributes item)
  follows : ∀ entry ∈ Entries.attributes item, Follows draft entry
  listed : itemsOrNone (Entries.get? "profiles" item) = .ok (Entries.profiles item)
  keys : ∀ profile ∈ Entries.profiles item, profile.isKey = true

instance (draft : Draft) : DecidablePred (Follows draft) := fun entry =>
  match found : objectTypeOf draft entry with
  | .ok type => decidable_of_iff (type.truthy = true → type.isKey = true)
      ⟨fun isKey => ⟨type, found, isKey⟩, fun ⟨_, same, isKey⟩ => by
        cases found.symm.trans same
        exact isKey⟩
  | .error _ => isFalse fun ⟨_, same, _⟩ => by
      cases found.symm.trans same

instance (draft : Draft) : DecidablePred (Followable draft) := fun item =>
  decidable_of_iff ((attributesOf item).toOption = some (Entries.attributes item) ∧
      (∀ entry ∈ Entries.attributes item, Follows draft entry) ∧
      (itemsOrNone (Entries.get? "profiles" item)).toOption = some (Entries.profiles item) ∧
      ∀ profile ∈ Entries.profiles item, profile.isKey = true)
    ⟨fun ⟨opened, follows, listed, keys⟩ => ⟨toOption_eq_some.mp opened, follows, toOption_eq_some.mp listed, keys⟩,
      fun given => ⟨toOption_eq_some.mpr given.opened, given.follows, toOption_eq_some.mpr given.listed, given.keys⟩⟩

/-- Following references ends, since every object is entered once. -/
theorem exists_reach
    (objects : ∀ key object, Entries.get? key draft.objects = some object → Followable draft object)
    {before : Entries Value} {todo : List (Text × Value)} (each : ∀ entry ∈ todo, Follows draft entry) :
    ∃ after, reach draft before todo = .ok after := by
  induction before, todo using reach.induct draft with
  | case1 before => exact ⟨before, by rw [reach]⟩
  | case2 before entry rest passed opened =>
      obtain ⟨⟨type, found, isKey⟩, others⟩ := List.forall_mem_cons.mp each
      rw [reach, found, ok_bind]
      by_cases told : type.truthy = true
      · rw [if_neg (by simp [told])]
        cases type with
        | text key =>
            dsimp only
            by_cases known : Entries.has key before = true
            · rw [dif_pos known]
              exact passed others
            · rw [dif_neg known]
              by_cases present : Entries.has key draft.objects = true
              · rw [dif_pos present]
                obtain ⟨object, held⟩ := Option.isSome_iff_exists.mp present
                have followable := objects key object held
                split
                · rename_i fault failed
                  rw [held, Option.getD_some, followable.opened] at failed
                  cases failed
                · rename_i attributes read
                  have own := read
                  rw [held, Option.getD_some, followable.opened] at own
                  cases own
                  refine opened key known present _ read fun entry member => ?_
                  rcases List.mem_append.mp member with inside | later
                  · exact followable.follows entry inside
                  · exact others entry later
              · rw [dif_neg present]
                exact passed others
        | null | bool _ | int _ | float _ | array _ | object _ _ =>
            dsimp only
            rw [if_pos (isKey told)]
            exact passed others
      · rw [if_pos (by simp [told])]
        exact passed others

private theorem exists_closeProfiles
    (objects : ∀ key object, Entries.get? key draft.objects = some object → Followable draft object)
    (kind : ItemKind) (key : Text) (followable : Followable draft item) :
    ∃ result, (closeProfiles draft kind key item).ComesTo result := by
  obtain ⟨reached, walk⟩ : ∃ reached, reach draft (if kind = .eventClass then [] else [(key, .null)])
      (Entries.attributes item) = .ok reached := exists_reach objects followable.follows
  have listing : ∀ entry ∈ reached, ∃ items, itemsOrNone (some entry.2) = .ok items := by
    intro entry member
    rcases (reach_ok walk).sound entry member with start | ⟨object, found, same, _⟩
    · split at start
      · cases start
      · rw [List.mem_singleton.mp start]
        exact ⟨[], rfl⟩
    · rw [same, Entries.orNull, Entries.getOr]
      have listed := (objects _ object found).listed
      cases given : Entries.get? "profiles" object with
      | none => exact ⟨[], rfl⟩
      | some profiles =>
          rw [given] at listed
          exact ⟨_, listed⟩
  obtain ⟨contents, listed⟩ : ∃ contents, (Entries.get? "profiles" item :: reached.map fun entry =>
      some entry.2).mapM itemsOrNone = .ok contents := by
    refine exists_mapM_ok fun list member => ?_
    rcases List.mem_cons.mp member with rfl | later
    · exact ⟨_, followable.listed⟩
    · obtain ⟨entry, among, rfl⟩ := List.mem_map.mp later
      exact listing entry among
  have merged := mergeProfiles_eq_ok.mpr ⟨contents, listed, rfl⟩
  unfold closeProfiles
  extract_lets start
  refine (Act.comesTo_lift followable.opened).exists_bind ((Act.comesTo_lift walk).exists_bind ?_)
  refine (Act.comesTo_lift merged).exists_bind ?_
  extract_lets finish
  have finished (done : Unit) : ∃ result, (finish done).ComesTo result := by
    unfold finish
    split
    · exact ⟨_, Act.comesTo_pure _⟩
    · exact ⟨_, Act.comesTo_pure _⟩
  split
  · exact (Act.comesTo_note _).exists_bind (finished ())
  · exact finished ()

theorem Followable.closeProfiles {kind : ItemKind}
    (objects : ∀ key object, Entries.get? key draft.objects = some object → Followable draft object)
    (itself : kind ≠ .eventClass → Entries.get? key draft.objects = some item) (followable : Followable draft item)
    (ran : (closeProfiles draft kind key item).Yields result) : Followable draft result := by
  have attributes := attributes_closeProfiles ran
  obtain ⟨_, _, _, _, _, frame⟩ := closeProfiles_ok ran
  obtain ⟨upper, _⟩ := closeProfiles_gathers itself ran
  constructor
  · have same : attributesOf result = attributesOf item := by
      unfold attributesOf Entries.orEmpty Entries.getOr
      rw [frame "attributes" (by decide)]
    rw [same, attributes]
    exact followable.opened
  · rw [attributes]
    exact followable.follows
  · obtain ⟨_, _, profiles, _, _, _, rfl⟩ := closeProfiles_steps ran
    split
    · exact followable.listed
    · rename_i some
      rw [Entries.profiles_put, Entries.get?_put_self]
      cases profiles with
      | nil => cases some rfl
      | cons first rest => rfl
  · intro profile member
    rcases upper profile member with own | ⟨_, _, _, _, other, _, known⟩
    · exact followable.keys profile own
    · unfold profilesAt at known
      cases found : Entries.get? other draft.objects with
      | none =>
          rw [found] at known
          cases known
      | some object =>
          rw [found] at known
          exact (objects other object found).keys profile known

structure Consolidable (draft : Draft) : Prop where
  distinct : Entries.Distinct draft.objects
  objects : ∀ entry ∈ draft.objects, Followable draft entry.2
  classes : ∀ entry ∈ draft.classes, Followable draft entry.2

/-- Which references can be followed depends on the keys of the objects alone. -/
theorem followable_with {objects : Entries Fields}
    (same : ∀ key, Entries.has key objects = Entries.has key draft.objects) :
    Followable { draft with objects } item ↔ Followable draft item := by
  have follows (entry : Text × Value) : Follows { draft with objects } entry ↔ Follows draft entry := by
    unfold Follows
    rw [objectTypeOf_of_has (rfl : { draft with objects }.attributes = draft.attributes) same]
  constructor
  · exact fun given => ⟨given.opened, fun entry member => (follows entry).mp (given.follows entry member),
      given.listed, given.keys⟩
  · exact fun given => ⟨given.opened, fun entry member => (follows entry).mpr (given.follows entry member),
      given.listed, given.keys⟩

structure StillFollowable (draft : Draft) (objects : Entries Fields) : Prop where
  keys : Entries.keys objects = Entries.keys draft.objects
  followable : ∀ key object, Entries.get? key objects = some object → Followable draft object

theorem StillFollowable.now {objects : Entries Fields} (still : StillFollowable draft objects) :
    ∀ key object, Entries.get? key objects = some object → Followable { draft with objects } object :=
  fun key object held => (followable_with (Entries.has_congr still.keys)).mpr (still.followable key object held)

theorem StillFollowable.step {objects : Entries Fields} (still : StillFollowable draft objects)
    (found : Entries.get? key objects = some item) :
    ∃ result, (closeProfiles { draft with objects } .object key item).ComesTo result ∧
      StillFollowable draft (Entries.put key result objects) := by
  have followable := still.now key item found
  obtain ⟨result, ran⟩ := exists_closeProfiles still.now .object key followable
  refine ⟨result, ran, ?_, fun other object held => ?_⟩
  · rw [Entries.keys_put, if_pos (Entries.has_iff_mem_keys.mpr (Entries.mem_keys_of_get? found))]
    exact still.keys
  · rw [Entries.get?_put] at held
    split at held
    · cases held
      have closed := followable.closeProfiles still.now (fun _ => found) ran.yields
      exact (followable_with (Entries.has_congr still.keys)).mp closed
    · exact still.followable other object held

/-- Consolidating ends with a draft whatever was told before. -/
theorem Consolidable.exists_closed (consolidable : Consolidable draft) :
    ∃ closed, draft.closeAllProfiles.ComesTo closed := by
  have begun : StillFollowable draft draft.objects :=
    ⟨rfl, fun key object found => consolidable.objects _ (Entries.mem_of_get? found)⟩
  unfold closeAllProfiles
  refine Act.exists_comesTo_bind
    (motive := fun state : Draft => ∃ objects, state = { draft with objects } ∧ StillFollowable draft objects)
    (Act.exists_comesTo_foldlM ⟨draft.objects, rfl, begun⟩ ?_) ?_
  · rintro _ key _ ⟨objects, rfl, still⟩
    cases found : Entries.get? key objects with
    | none => exact ⟨_, Act.comesTo_pure _, objects, rfl, still⟩
    | some item =>
        obtain ⟨result, closing, later⟩ := still.step found
        exact ⟨_, closing.bind (Act.comesTo_pure _), _, rfl, later⟩
  · rintro _ ⟨objects, rfl, still⟩
    have listed : ∀ entry ∈ draft.classes, ∃ result, (do return (entry.1,
        ← closeProfiles { draft with objects } .eventClass entry.1 entry.2) : Act (Text × Fields)).ComesTo result := by
      intro entry member
      obtain ⟨result, closing⟩ := exists_closeProfiles still.now .eventClass entry.1
        ((followable_with (Entries.has_congr still.keys)).mpr (consolidable.classes entry member))
      exact ⟨_, closing.bind (Act.comesTo_pure _)⟩
    obtain ⟨classes, ran⟩ := Act.exists_comesTo_mapM listed
    exact ran.exists_bind ⟨_, Act.comesTo_pure _⟩

/-! ### The order of the objects -/

theorem Reaches.congr {left right : Draft} (attributes : left.attributes = right.attributes)
    (found : ∀ key, Entries.get? key left.objects = Entries.get? key right.objects)
    (reaches : Reaches left item key) : Reaches right item key := by
  have has (key : Text) : Entries.has key left.objects = Entries.has key right.objects := by
    rw [Entries.has, Entries.has, found]
  have leads {entry : Text × Value} {key : Text} (given : Leads left entry key) : Leads right entry key :=
    ⟨objectTypeOf_of_has attributes has entry ▸ given.type, given.named, has key ▸ given.present⟩
  have refers (key other : Text) (given : Refers left key other) : Refers right key other := by
    obtain ⟨object, held, entry, member, first⟩ := given
    exact ⟨object, found key ▸ held, entry, member, leads first⟩
  obtain ⟨entry, member, first, begun, way⟩ := reaches
  exact ⟨entry, member, first, leads begun, way.lift id refers⟩

theorem Consolidated.isIn_eq {left right : Draft} {other : Fields} (first : Consolidated left item result)
    (second : Consolidated right item other) (attributes : left.attributes = right.attributes)
    (found : ∀ key, Entries.get? key left.objects = Entries.get? key right.objects) (profile : Value) :
    profile.isIn (Entries.profiles result) = profile.isIn (Entries.profiles other) := by
  have profiles (key : Text) : profilesAt left.objects key = profilesAt right.objects key := by
    rw [profilesAt, profilesAt, found]
  rw [Bool.eq_iff_iff, first.exact, second.exact]
  refine or_congr Iff.rfl (exists_congr fun key => ?_)
  rw [profiles]
  refine and_congr ⟨Reaches.congr attributes found, ?_⟩ Iff.rfl
  exact Reaches.congr attributes.symm fun key => (found key).symm

def SameProfiles (left right : Fields) : Prop :=
  ∀ profile : Value, profile.isIn (Entries.profiles left) = profile.isIn (Entries.profiles right)

/-- Consolidating the profiles of a draft comes to an end from every run. It changes nothing but the
profiles: those of each item are its own first and then those that the objects in its reach had at the
start, each once. Taking the objects in another order leaves each item with the same profiles. -/
theorem profiles_consolidated (consolidable : Consolidable draft) :
    ∃ closed, draft.closeAllProfiles.ComesTo closed ∧ ConsolidatesTo draft closed ∧
      ∀ objects : Entries Fields, objects.Perm draft.objects →
        ∃ other, ({ draft with objects } : Draft).closeAllProfiles.ComesTo other ∧
          (∀ key left right, Entries.get? key closed.objects = some left →
            Entries.get? key other.objects = some right → SameProfiles left right) ∧
          Entries.Related (fun _ => SameProfiles) closed.classes other.classes := by
  have ends {draft : Draft} (consolidable : Consolidable draft) :
      ∃ closed, draft.closeAllProfiles.ComesTo closed ∧ ConsolidatesTo draft closed := by
    obtain ⟨closed, comes⟩ := consolidable.exists_closed
    exact ⟨closed, comes, consolidatesTo_of_yields consolidable.distinct
      (fun entry member => (consolidable.objects entry member).keys)
      (fun entry member => (consolidable.classes entry member).keys) comes.yields⟩
  obtain ⟨closed, comes, consolidated⟩ := ends consolidable
  refine ⟨closed, comes, consolidated, fun objects perm => ?_⟩
  have found (key : Text) : Entries.get? key objects = Entries.get? key draft.objects :=
    Entries.get?_of_perm consolidable.distinct perm key
  have followable {item : Fields} (given : Followable draft item) : Followable { draft with objects } item :=
    (followable_with fun key => by rw [Entries.has, Entries.has, found]).mpr given
  have reordered : Consolidable { draft with objects } := {
    distinct := (perm.map Prod.fst).nodup_iff.mpr consolidable.distinct
    objects := fun entry member => followable (consolidable.objects entry (perm.mem_iff.mp member))
    classes := fun entry member => followable (consolidable.classes entry member) }
  obtain ⟨other, ran, treated⟩ := ends reordered
  have same {item left right : Fields} (first : Consolidated draft item left)
      (second : Consolidated { draft with objects } item right) : SameProfiles left right :=
    first.isIn_eq second rfl fun key => (found key).symm
  refine ⟨other, ran, fun key left right one two => ?_, ?_⟩
  · obtain ⟨item, held, first⟩ := consolidated.objects.get?_right one
    obtain ⟨item', held', second⟩ := treated.objects.get?_right two
    cases held.symm.trans ((found key).symm.trans held')
    exact same first second
  · refine (consolidated.classes.flip.trans treated.classes).imp ?_
    rintro _ _ _ ⟨item, first, second⟩
    exact same first second

/-- Two objects that refer to each other, and a class that refers to one of them. -/
def cyclicDraft : Draft :=
  let refers (key : Text) : Value := .record [("other", .record [("object_type", .text key)])]
  { version := .null
    extensions := []
    categories := .record []
    profiles := .record []
    attributes := []
    types := []
    dictionaryExtras := []
    observables := []
    objects := [
      ("left", [("profiles", .array [.text "a", .text "b", .text "a"]), ("attributes", refers "right")]),
      ("right", [("profiles", .array [.text "c"]), ("attributes", refers "left")])]
    classes := [("event", [("profiles", .array [.text "c", .text "d"]), ("attributes", refers "left")])] }

theorem profiles_consolidated_cyclic : ∃ closed, cyclicDraft.closeAllProfiles.ComesTo closed ∧
    ConsolidatesTo cyclicDraft closed ∧
    closed.classes.map (fun entry => Entries.profiles entry.2) = [[.text "c", .text "d", .text "a", .text "b"]] ∧
    closed.objects.map (fun entry => Entries.profiles entry.2) =
      [[.text "a", .text "b", .text "c"], [.text "c", .text "a", .text "b"]] := by
  have evaluated : ((cyclicDraft.closeAllProfiles.outcome {}).1.toOption.map fun closed =>
      (closed.classes.map (fun entry => Entries.profiles entry.2),
        closed.objects.map (fun entry => Entries.profiles entry.2))) =
      some ([[.text "c", .text "d", .text "a", .text "b"]],
        [[.text "a", .text "b", .text "c"], [.text "c", .text "a", .text "b"]]) := by decide +kernel
  have consolidable : Consolidable cyclicDraft :=
    ⟨by decide, by decide +kernel, by decide +kernel⟩
  obtain ⟨closed, comes, consolidated, _⟩ := profiles_consolidated consolidable
  obtain ⟨after, ran⟩ := comes {}
  rw [ran] at evaluated
  obtain ⟨classes, objects⟩ := Prod.mk.inj (Option.some.inj evaluated)
  exact ⟨closed, comes, consolidated, classes, objects⟩

end EventSchema.Draft
