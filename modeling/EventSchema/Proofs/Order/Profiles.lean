import EventSchema.Proofs.Draft.Consolidated
import EventSchema.Proofs.Draft.Datetime
import EventSchema.Proofs.Order.Drafts

/-!
Profiles consolidated in another order.

Consolidating takes the objects one after another, each with what the others have by then. What each is left
with depends on what is found under the keys, so the same names are listed whatever the order is. The order
of the names in a list is that in which the objects were reached.
-/

set_option autoImplicit false

namespace EventSchema

open Value

namespace Value

/-! ### Lists of names -/

/-- The same names in another order; numbers that are equal are one name. -/
def SameNames (names others : List Value) : Prop := (names.map leafCode).Perm (others.map leafCode)

private theorem isKey_leafCode (name : Value) : (leafCode name).isKey = name.isKey := by
  cases name with
  | float x =>
      unfold leafCode
      dsimp only
      split
      · rfl
      · split <;> rfl
  | null | bool _ | int _ | text _ | array _ | object _ _ => rfl

variable {names others : List Value}

theorem SameNames.refl (names : List Value) : SameNames names names := List.Perm.refl _

theorem SameNames.keys (same : SameNames names others) (keys : ∀ name ∈ names, name.isKey = true) :
    ∀ name ∈ others, name.isKey = true := by
  intro name member
  obtain ⟨other, among, equal⟩ := List.mem_map.mp (same.mem_iff.mpr (List.mem_map_of_mem member))
  rw [← isKey_leafCode, ← equal, isKey_leafCode]
  exact keys other among

/-- No name comes twice if none is compared by the same as another. -/
theorem apart_iff_nodup (keys : ∀ name ∈ names, name.isKey = true) : Apart names ↔ (names.map leafCode).Nodup := by
  have told {first later : Value} (here : first ∈ names) (there : later ∈ names) :
      same first later = false ↔ leafCode first ≠ leafCode later := by
    rw [← Bool.not_eq_true, same_iff_leafCode (keys first here) (keys later there)]
  rw [Apart, List.Nodup, List.pairwise_map]
  exact ⟨List.Pairwise.imp_of_mem fun here there => (told here there).mp,
    List.Pairwise.imp_of_mem fun here there => (told here there).mpr⟩

theorem SameNames.apart (same : SameNames names others) (keys : ∀ name ∈ names, name.isKey = true)
    (apart : Apart names) : Apart others :=
  (apart_iff_nodup (same.keys keys)).mpr (same.nodup_iff.mp ((apart_iff_nodup keys).mp apart))

private theorem isIn_iff_code {name : Value} (key : name.isKey = true) (keys : ∀ name ∈ names, name.isKey = true) :
    name.isIn names = true ↔ leafCode name ∈ names.map leafCode := by
  rw [isIn_iff, List.mem_map]
  exact exists_congr fun other => and_congr_right fun member => same_iff_leafCode (keys other member) key

theorem SameNames.isIn_eq (same : SameNames names others) (keys : ∀ name ∈ names, name.isKey = true) {name : Value}
    (key : name.isKey = true) : name.isIn others = name.isIn names := by
  rw [Bool.eq_iff_iff, isIn_iff_code key (same.keys keys), isIn_iff_code key keys, same.mem_iff]

/-- Lists without repeats that hold the same names have them in another order. -/
theorem sameNames_of_isIn (keys : ∀ name ∈ names, name.isKey = true) (keys' : ∀ name ∈ others, name.isKey = true)
    (apart : Apart names) (apart' : Apart others) (held : ∀ name : Value, name.isIn names = name.isIn others) :
    SameNames names others := by
  refine (List.perm_ext_iff_of_nodup ((apart_iff_nodup keys).mp apart) ((apart_iff_nodup keys').mp apart')).mpr
    fun code => ?_
  have listed {names others : List Value} (keys : ∀ name ∈ names, name.isKey = true)
      (keys' : ∀ name ∈ others, name.isKey = true) (held : ∀ name : Value, name.isIn names = name.isIn others)
      (member : code ∈ names.map leafCode) : code ∈ others.map leafCode := by
    obtain ⟨name, among, rfl⟩ := List.mem_map.mp member
    have key := keys name among
    refine (isIn_iff_code key keys').mp ?_
    rw [← held]
    exact isIn_iff.mpr ⟨name, among, same_refl key⟩
  exact ⟨listed keys keys' held, listed keys' keys fun name => (held name).symm⟩

inductive SameListed : Value → Value → Prop where
  | same (value : Value) : SameListed value value
  | listed {names others : List Value} (keys : ∀ name ∈ names, name.isKey = true) (apart : Apart names)
      (same : SameNames names others) : SameListed (.array names) (.array others)

end Value

namespace Draft

variable {draft other : Draft} {item result item' result' : Fields} {key : Text} {kind : ItemKind}

/-! ### What a check tells -/

structure Listed (item : Fields) : Prop where
  listed : itemsOrNone (Entries.get? "profiles" item) = .ok (Entries.profiles item)
  keys : ∀ profile ∈ Entries.profiles item, profile.isKey = true

/-- Only keys are looked for among the profiles of a schema. -/
theorem isKey_of_member {profile container : Value} {held : Bool} (object : container.isObject = true)
    (asked : profile.member container = .ok held) : profile.isKey = true := by
  cases container with
  | object mark fields =>
      cases profile with
      | array _ | object _ _ => cases asked
      | null | bool _ | int _ | float _ | text _ => rfl
  | null | bool _ | int _ | float _ | text _ | array _ => cases object

theorem listed_of_checkProfiles (object : draft.profiles.isObject = true)
    (ran : (checkProfiles draft kind key item).Yields ()) : Listed item := by
  unfold checkProfiles at ran
  obtain ⟨names, listed, ran⟩ := Act.yields_bind ran
  obtain ⟨_, checked, _⟩ := Act.yields_bind ran
  rw [Act.yields_lift] at listed
  have same : Entries.profiles item = names := Entries.profiles_of_ok listed
  refine ⟨by rw [same]; exact listed, fun profile member => ?_⟩
  have steps := Act.yields_forIn ?_ checked
  · obtain ⟨_, asked, _⟩ := Act.yields_bind (steps profile (same ▸ member))
    exact isKey_of_member object (Act.yields_lift.mp asked)
  · intro other next step
    obtain ⟨_, _, step⟩ := Act.yields_bind step
    split at step
    · obtain ⟨_, _, step⟩ := Act.yields_bind step
      exact (Act.yields_pure.mp step).symm
    · exact (Act.yields_pure.mp step).symm

/-! ### What consolidating tells -/

structure Readable (draft : Draft) (item : Fields) : Prop where
  opened : attributesOf item = .ok (Entries.attributes item)
  follows : ∀ entry ∈ Entries.attributes item, Follows draft entry

private theorem follows_congr (draft other : Draft) (attributes : other.attributes = draft.attributes)
    (has : ∀ key, Entries.has key other.objects = Entries.has key draft.objects) {entry : Text × Value} :
    Follows other entry ↔ Follows draft entry := by
  unfold Follows
  rw [objectTypeOf_of_has attributes has]

/-- Every attribute that a walk starts with was followed. -/
theorem follows_of_reach {before after : Entries Value} {todo : List (Text × Value)}
    (ran : reach draft before todo = .ok after) : ∀ entry ∈ todo, Follows draft entry := by
  induction before, todo using reach.induct draft with
  | case1 before => exact List.forall_mem_nil _
  | case2 before entry rest passed opened =>
      rw [reach] at ran
      obtain ⟨type, found, ran⟩ := bind_eq_ok.mp ran
      split at ran
      · rename_i untold
        exact List.forall_mem_cons.mpr ⟨⟨type, found, fun told => by rw [told] at untold; cases untold⟩, passed ran⟩
      · rename_i told
        split at ran
        · rename_i key
          refine List.forall_mem_cons.mpr ⟨⟨_, found, fun _ => rfl⟩, ?_⟩
          split at ran
          · exact passed ran
          · rename_i fresh
            split at ran
            · rename_i present
              dsimp only at ran
              split at ran
              · cases ran
              · rename_i attributes read
                exact (List.forall_mem_append.mp (opened key fresh present attributes read ran)).2
            · exact passed ran
        · split at ran
          · rename_i isKey
            exact List.forall_mem_cons.mpr ⟨⟨type, found, fun _ => isKey⟩, passed ran⟩
          · cases ran

private theorem readable_of_closeProfiles (ran : (closeProfiles draft kind key item).Yields result) :
    Readable draft item := by
  obtain ⟨attributes, _, _, opened, walked, _, _⟩ := closeProfiles_steps ran
  have same := attributes_of_ok opened
  exact ⟨same ▸ opened, same ▸ follows_of_reach walked⟩

inductive Relisted (item : Fields) : Fields → Prop where
  | none (empty : Entries.profiles item = []) : Relisted item item
  | listed {names : List Value} (some : names ≠ []) : Relisted item (Entries.put "profiles" (.array names) item)

theorem Relisted.trans {last : Fields} (first : Relisted item result) (later : Relisted result last) :
    Relisted item last := by
  cases first with
  | none => exact later
  | listed some =>
      cases later with
      | none empty =>
          rw [Entries.profiles_put] at empty
          exact absurd empty some
      | listed more =>
          rw [Entries.put_put]
          exact .listed more

private theorem relisted_closeProfiles (ran : (closeProfiles draft kind key item).Yields result) :
    Relisted item result := by
  obtain ⟨_, _, names, _, _, merged, rfl⟩ := closeProfiles_steps ran
  split
  · rename_i empty
    rw [List.isEmpty_iff] at empty
    obtain ⟨contents, listed, told⟩ := mergeProfiles_eq_ok.mp merged
    obtain ⟨own, others, first, _, rfl⟩ := List.forall₂_cons_left_iff.mp (mapM_eq_ok.mp listed)
    refine .none ?_
    rw [Entries.profiles, first]
    dsimp only
    cases own with
    | nil => rfl
    | cons profile rest =>
        rw [empty, List.flatten_cons, List.cons_append, addNew_cons] at told
        exact absurd told.symm (addNew_ne_nil (List.cons_ne_nil profile []))
  · rename_i some
    exact .listed fun empty => some (empty ▸ rfl)

structure Relisting (draft : Draft) (done : List Text) (objects : Entries Fields) : Prop where
  keys : Entries.keys objects = Entries.keys draft.objects
  each : ∀ key item, Entries.get? key draft.objects = some item → ∃ middle, Entries.get? key objects = some middle ∧
    ((key ∉ done ∧ middle = item) ∨ Readable draft item ∧ Relisted item middle)

namespace Relisting

variable {done : List Text} {objects : Entries Fields}

theorem start (draft : Draft) : Relisting draft [] draft.objects where
  keys := rfl
  each _ item found := ⟨item, found, .inl ⟨List.not_mem_nil, rfl⟩⟩

theorem readable (relisting : Relisting draft done objects) (read : Readable { draft with objects } item) :
    Readable draft item := by
  have same (entry : Text × Value) : Follows { draft with objects } entry ↔ Follows draft entry :=
    follows_congr draft { draft with objects } rfl (Entries.has_congr relisting.keys)
  exact ⟨read.opened, fun entry member => (same entry).mp (read.follows entry member)⟩

theorem step (relisting : Relisting draft done objects) {middle : Fields} (found :
    Entries.get? key objects = some middle)
    (closing : (closeProfiles { draft with objects } .object key middle).Yields result) :
    Relisting draft (done ++ [key]) (Entries.put key result objects) where
  keys := by
    rw [Entries.keys_put, if_pos (Entries.has_iff_mem_keys.mpr (Entries.mem_keys_of_get? found)), relisting.keys]
  each name item held := by
    obtain ⟨before, known, way⟩ := relisting.each name item held
    rw [Entries.get?_put]
    by_cases same : name = key
    · subst same
      cases found.symm.trans known
      have relisted := relisted_closeProfiles closing
      rw [if_pos rfl]
      refine ⟨result, rfl, .inr ?_⟩
      rcases way with ⟨_, rfl⟩ | ⟨read, first⟩
      · exact ⟨relisting.readable (readable_of_closeProfiles closing), relisted⟩
      · exact ⟨read, first.trans relisted⟩
    · rw [if_neg same]
      refine ⟨before, known, way.imp_left fun ⟨fresh, still⟩ => ⟨fun member => ?_, still⟩⟩
      exact (List.mem_append.mp member).elim fresh fun single => same (List.mem_singleton.mp single)

theorem skip (relisting : Relisting draft done objects) (absent : Entries.get? key objects = none) :
    Relisting draft (done ++ [key]) objects where
  keys := relisting.keys
  each name item held := by
    obtain ⟨before, known, way⟩ := relisting.each name item held
    refine ⟨before, known, way.imp_left fun ⟨fresh, still⟩ => ⟨fun member => ?_, still⟩⟩
    refine (List.mem_append.mp member).elim fresh fun single => ?_
    rw [List.mem_singleton.mp single, absent] at known
    cases known

end Relisting

/-- Consolidating reads every item and lists its profiles anew. -/
theorem closeAllProfiles_relists {closed : Draft} (distinct : Entries.Distinct draft.objects)
    (ran : draft.closeAllProfiles.Yields closed) :
    Entries.Related (fun _ item result => Readable draft item ∧ Relisted item result) draft.objects closed.objects ∧
      Entries.Related (fun _ item result => Readable draft item ∧ Relisted item result) draft.classes
        closed.classes := by
  obtain ⟨objects, classes, rfl, relisting, each⟩ := closeAllProfiles_ok (motive := Relisting draft) ran (.start draft)
    (fun _ _ _ _ _ relisting found closing => relisting.step found closing)
    (fun _ _ _ relisting absent => relisting.skip absent)
  refine ⟨Entries.related_of_get? relisting.keys.symm distinct fun key item found => ?_, each.imp fun _ _ _ closing =>
    ⟨relisting.readable (readable_of_closeProfiles closing), relisted_closeProfiles closing⟩⟩
  obtain ⟨result, held, untreated | treated⟩ := relisting.each key item found
  · exact absurd (Entries.mem_keys_of_get? found) untreated.1
  · exact ⟨result, held, treated⟩

structure Combined (draft : Draft) (item result : Fields) : Prop extends Consolidated draft item result where
  relisted : Relisted item result
  keys : ∀ profile ∈ Entries.profiles result, profile.isKey = true

private theorem isKey_closeAllProfiles {closed : Draft} (consolidable : Consolidable draft)
    (ran : draft.closeAllProfiles.Yields closed) :
    (∀ entry ∈ closed.objects, ∀ profile ∈ Entries.profiles entry.2, profile.isKey = true) ∧
      ∀ entry ∈ closed.classes, ∀ profile ∈ Entries.profiles entry.2, profile.isKey = true := by
  obtain ⟨objects, classes, rfl, consolidating, each⟩ := closeAllProfiles_ok (motive := Consolidating draft) ran
    (.start draft) (fun _ _ _ _ _ consolidating found closed => consolidating.step found closed)
    (fun _ _ _ consolidating absent => consolidating.skip absent)
  have keys := isKey_profilesAt fun entry member => (consolidable.objects entry member).keys
  refine ⟨fun entry member profile known => ?_, fun entry member profile known => ?_⟩
  · have distinct : Entries.Distinct objects := by
      rw [Entries.Distinct, consolidating.closing.same.keys]
      exact consolidable.distinct
    exact consolidating.isKey_profiles keys entry.1 profile
      (profilesAt_of_get? (Entries.get?_of_mem distinct member) ▸ known)
  · obtain ⟨item, before, closing⟩ := each.mem_right member
    exact consolidating.isKey_class keys (consolidable.classes _ before).keys closing profile known

/-- Where the profiles are lists of keys, all items are consolidated if that comes to an end. -/
theorem closeAllProfiles_lists {closed : Draft} (distinct : Entries.Distinct draft.objects)
    (listedObjects : ∀ entry ∈ draft.objects, Listed entry.2) (listedClasses : ∀ entry ∈ draft.classes, Listed entry.2)
    (ran : draft.closeAllProfiles.Yields closed) : Consolidable draft ∧
      closed = { draft with objects := closed.objects, classes := closed.classes } ∧
      Entries.Related (fun _ => Combined draft) draft.objects closed.objects ∧
      Entries.Related (fun _ => Combined draft) draft.classes closed.classes := by
  obtain ⟨objects, classes⟩ := closeAllProfiles_relists distinct ran
  have followable {items results : Entries Fields} (listed : ∀ entry ∈ items, Listed entry.2)
      (treated : Entries.Related (fun _ item result => Readable draft item ∧ Relisted item result) items results) :
      ∀ entry ∈ items, Followable draft entry.2 := by
    intro entry member
    obtain ⟨_, _, _, read, _⟩ := exists_right_of_mem treated member
    exact ⟨read.opened, read.follows, (listed entry member).listed, (listed entry member).keys⟩
  have consolidable : Consolidable draft :=
    ⟨distinct, followable listedObjects objects, followable listedClasses classes⟩
  have ends := consolidatesTo_of_yields distinct (fun entry member => (consolidable.objects entry member).keys)
    (fun entry member => (consolidable.classes entry member).keys) ran
  obtain ⟨keys, keys'⟩ := isKey_closeAllProfiles consolidable ran
  have lists {items results : Entries Fields}
      (treated : Entries.Related (fun _ item result => Readable draft item ∧ Relisted item result) items results)
      (ended : Entries.Related (fun _ => Consolidated draft) items results)
      (keys : ∀ entry ∈ results, ∀ profile ∈ Entries.profiles entry.2, profile.isKey = true) :
      Entries.Related (fun _ => Combined draft) items results := by
    induction treated with
    | nil => exact .nil
    | cons first _ ih =>
        obtain ⟨ended, others⟩ := List.forall₂_cons.mp ended
        obtain ⟨own, keys⟩ := List.forall_mem_cons.mp keys
        exact .cons ⟨first.1, { ended.2 with relisted := first.2.2, keys := own }⟩ (ih others keys)
  exact ⟨consolidable, ends.others, lists objects ends.objects keys, lists classes ends.classes keys'⟩

/-! ### The same objects in reach -/

namespace Corresponds

variable {relation : Fields → Fields → Prop}

theorem objectTypeOf_eq (corresponds : Corresponds relation draft other) (entry : Text × Value) :
    objectTypeOf other entry = objectTypeOf draft entry :=
  objectTypeOf_of_has corresponds.attributes corresponds.objects.has_eq entry

private theorem profilesAt_eq (corresponds : Corresponds (SimilarItems Similar Eq) draft other) (key : Text) :
    profilesAt other.objects key = profilesAt draft.objects key := by
  have here := corresponds.objects.get? key
  unfold profilesAt
  generalize Entries.get? key draft.objects = one, Entries.get? key other.objects = two at here ⊢
  cases here with
  | none => rfl
  | some similar =>
      rw [Option.getD_some, Option.getD_some, Entries.profiles, Entries.profiles, similar.get?_profiles]

variable (corresponds : Corresponds (SimilarItems Similar Eq) draft other)
include corresponds

theorem leads_iff {name key : Text} {value value' : Value} (similar : Similar value value') :
    Leads other (name, value') key ↔ Leads draft (name, value) key := by
  have type : objectTypeOf other (name, value') = objectTypeOf draft (name, value) :=
    (corresponds.objectTypeOf_eq _).trans (similar.objectTypeOf_eq draft name)
  have present := corresponds.objects.has_eq key
  exact ⟨fun leads => ⟨type ▸ leads.type, leads.named, present ▸ leads.present⟩,
    fun leads => ⟨type ▸ leads.type, leads.named, present ▸ leads.present⟩⟩

private theorem exists_leads_iff (similar : SimilarItems Similar Eq item item') :
    (∃ entry ∈ Entries.attributes item', Leads other entry key) ↔
      ∃ entry ∈ Entries.attributes item, Leads draft entry key := by
  have related := similar.relatedAttributes Similar.refl
  constructor
  · rintro ⟨⟨name, value'⟩, member, leads⟩
    obtain ⟨value, present, held⟩ := related.mem_right member
    exact ⟨_, present, (corresponds.leads_iff held).mp leads⟩
  · rintro ⟨entry, member, leads⟩
    obtain ⟨⟨_, value'⟩, present, rfl, held⟩ := exists_right_of_mem related member
    exact ⟨_, present, (corresponds.leads_iff held).mpr leads⟩

private theorem refers_iff {next : Text} : Refers other key next ↔ Refers draft key next := by
  have here := corresponds.objects.get? key
  unfold Refers
  generalize Entries.get? key draft.objects = one, Entries.get? key other.objects = two at here ⊢
  cases here with
  | none => simp
  | some similar =>
      simp only [Option.some.injEq, exists_eq_left']
      exact corresponds.exists_leads_iff similar

private theorem reaches_iff (similar : SimilarItems Similar Eq item item') :
    Reaches other item' key ↔ Reaches draft item key := by
  have refers : Refers other = Refers draft := funext fun _ => funext fun _ => propext corresponds.refers_iff
  have swap {draft : Draft} {item : Fields} : Reaches draft item key ↔ ∃ first,
      (∃ entry ∈ Entries.attributes item, Leads draft entry first) ∧ Relation.ReflTransGen (Refers draft) first key :=
    ⟨fun ⟨entry, member, first, leads, way⟩ => ⟨first, ⟨entry, member, leads⟩, way⟩,
      fun ⟨first, ⟨entry, member, leads⟩, way⟩ => ⟨entry, member, first, leads, way⟩⟩
  rw [swap, swap, refers]
  exact exists_congr fun first => and_congr_left' (corresponds.exists_leads_iff similar)

theorem followable (similar : SimilarItems Similar Eq item item') (given : Followable draft item) :
    Followable other item' := by
  have related := similar.relatedAttributes Similar.refl
  obtain ⟨attributes, opened, _⟩ := similar.attributesOf Similar.refl _ given.opened
  have profiles := similar.get?_profiles
  have same : Entries.profiles item' = Entries.profiles item := by rw [Entries.profiles, profiles, Entries.profiles]
  refine ⟨attributes_of_ok opened ▸ opened, ?_, by rw [same, profiles]; exact given.listed,
    by rw [same]; exact given.keys⟩
  rintro ⟨name, value'⟩ member
  obtain ⟨value, present, held⟩ := related.mem_right member
  obtain ⟨type, found, isKey⟩ := given.follows _ present
  exact ⟨type, ((corresponds.objectTypeOf_eq _).trans (held.objectTypeOf_eq draft name)).trans found, isKey⟩

theorem consolidable (given : Consolidable draft) : Consolidable other where
  distinct := corresponds.objects.distinct_right
  objects entry member := by
    obtain ⟨item, present, similar⟩ := corresponds.objects.exists_left member
    exact corresponds.followable similar (given.objects _ present)
  classes entry member := by
    obtain ⟨item, present, similar⟩ := corresponds.classes.exists_left member
    exact corresponds.followable similar (given.classes _ present)

/-- Items that are alike are left with the same profiles. -/
theorem similar_consolidated (similar : SimilarItems Similar Eq item item') (first : Combined draft item result)
    (second : Combined other item' result') : SimilarItems Similar SameListed result result' := by
  have own : Entries.profiles item' = Entries.profiles item := by
    rw [Entries.profiles, similar.get?_profiles, Entries.profiles]
  have held (profile : Value) : profile.isIn (Entries.profiles result) = profile.isIn (Entries.profiles result') := by
    rw [Bool.eq_iff_iff, first.exact, second.exact, own]
    refine or_congr Iff.rfl (exists_congr fun key => ?_)
    rw [corresponds.reaches_iff similar, corresponds.profilesAt_eq]
  have same := sameNames_of_isIn first.keys second.keys first.apart second.apart held
  have kept : SimilarItems Similar SameListed item item' :=
    similar.imp (fun _ _ similar => similar) fun value _ same => same ▸ .same value
  have keys := first.keys
  have apart := first.apart
  cases first.relisted with
  | none empty =>
      cases second.relisted with
      | none => exact kept
      | listed some =>
          rw [empty, Entries.profiles_put] at same
          exact absurd (List.map_eq_nil_iff.mp (List.nil_perm.mp same)) some
  | listed some =>
      rw [Entries.profiles_put] at same keys apart
      cases second.relisted with
      | none empty =>
          rw [empty] at same
          exact absurd (List.map_eq_nil_iff.mp (List.perm_nil.mp same)) some
      | listed =>
          rw [Entries.profiles_put] at same
          exact kept.putProfiles (.listed keys apart same)

end Corresponds

private theorem countsNothing_closeProfiles (draft : Draft) (kind : ItemKind) (key : Text) (item : Fields) :
    (closeProfiles draft kind key item).CountsNothing := by
  unfold closeProfiles
  extract_lets start
  refine (Act.CountsNothing.lift _).bind fun attributes => (Act.CountsNothing.lift _).bind fun reached => ?_
  extract_lets
  refine (Act.CountsNothing.lift _).bind fun profiles => ?_
  extract_lets finish
  have finished (done : Unit) : (finish done).CountsNothing := by
    unfold finish
    split
    · exact .pure _
    · exact .pure _
  split
  · exact (Act.CountsNothing.note _).bind finished
  · exact finished ()

private theorem countsNothing_closeAllProfiles (draft : Draft) : draft.closeAllProfiles.CountsNothing := by
  refine (Act.CountsNothing.foldlM _ fun draft key _ => ?_).bind fun draft => ?_
  · split
    · exact (countsNothing_closeProfiles draft .object key _).bind fun _ => .pure _
    · exact .pure _
  · refine (Act.CountsNothing.mapM fun entry _ => ?_).bind fun _ => .pure _
    exact (countsNothing_closeProfiles draft .eventClass entry.1 entry.2).bind fun _ => .pure _

/-- Drafts whose profiles are lists of keys are consolidated alike. -/
theorem Corresponds.mirrors_closeAllProfiles (corresponds : Corresponds (SimilarItems Similar Eq) draft other)
    (listedObjects : ∀ entry ∈ draft.objects, Listed entry.2) (listedClasses : ∀ entry ∈ draft.classes,
      Listed entry.2) :
    draft.closeAllProfiles.Mirrors (Corresponds (SimilarItems Similar SameListed)) other.closeAllProfiles := by
  intro run run' closed after alike ran
  obtain ⟨consolidable, same, objects, classes⟩ :=
    closeAllProfiles_lists corresponds.objects.distinct listedObjects listedClasses (.of_outcome ran)
  have consolidable' := corresponds.consolidable consolidable
  obtain ⟨closed', comes⟩ := consolidable'.exists_closed
  obtain ⟨after', ran'⟩ := comes run'
  obtain ⟨_, same', objects', classes'⟩ := closeAllProfiles_lists consolidable'.distinct
    (fun entry member => ⟨(consolidable'.objects entry member).listed, (consolidable'.objects entry member).keys⟩)
    (fun entry member => ⟨(consolidable'.classes entry member).listed, (consolidable'.classes entry member).keys⟩)
    comes.yields
  refine ⟨closed', after', ran', ?_, ?_⟩
  · rw [same, same']
    exact { corresponds with
      classes := corresponds.classes.treated classes classes' fun _ _ _ _ _ _ similar one two =>
        corresponds.similar_consolidated similar one two
      objects := corresponds.objects.treated objects objects' fun _ _ _ _ _ _ similar one two =>
        corresponds.similar_consolidated similar one two }
  · rw [countsNothing_closeAllProfiles draft run closed after ran,
      countsNothing_closeAllProfiles other run' closed' after' ran']
    exact alike

/-! ### Siblings of timestamps -/

private theorem mergeProfiles_one {names : List Value} (apart : Apart names) (name : Value) :
    mergeProfiles [some (.array names), some (.array [name])] =
      .ok (if name.isIn names then names else names ++ [name]) := by
  have listed : [some (.array names), some (.array [name])].mapM itemsOrNone = .ok [names, [name]] := by
    rw [List.mapM_cons, itemsOrNone_array, ok_bind]
    rfl
  have kept : addNew [] names = names := addNew_of_apart apart
  rw [mergeProfiles_eq_ok.mpr ⟨_, listed, rfl⟩, List.flatten_cons, List.flatten_cons, List.flatten_nil, List.append_nil,
    addNew_append, kept, addNew_cons, addNew_nil]

private theorem matched_mergeProfiles {value value' : Option Value} (listed : Option.Rel SameListed value value')
    {name : Value}
    (key : name.isKey = true) : Matched (fun names names' => SameListed (.array names) (.array names'))
      (mergeProfiles [value, some (.array [name])]) (mergeProfiles [value', some (.array [name])]) := by
  have itself (value : Option Value) : Matched (fun names names' => SameListed (.array names) (.array names'))
      (mergeProfiles [value, some (.array [name])]) (mergeProfiles [value, some (.array [name])]) :=
    (Matched.refl _).imp fun names _ same => same ▸ .same _
  cases listed with
  | none => exact itself _
  | some listed =>
      cases listed with
      | same => exact itself _
      | @listed names others keys apart same =>
          have joined : Apart (addNew names [name]) := apart.addNew [name]
          rw [addNew_cons, addNew_nil] at joined
          rw [mergeProfiles_one apart, mergeProfiles_one (same.apart keys apart), same.isIn_eq keys key]
          refine .ok ?_
          split
          · exact .listed keys apart same
          · rename_i fresh
            rw [if_neg fresh] at joined
            refine .listed (List.forall_mem_append.mpr ⟨keys, List.forall_mem_singleton.mpr key⟩) joined ?_
            rw [SameNames, List.map_append, List.map_append]
            exact same.append_right _

/-- Attributes that are alike stay so when siblings that are alike are written to them. -/
theorem related_withSiblings {attributes others siblings siblings' : Fields}
    (related : Entries.Related (fun _ => Similar) attributes others)
    (each : Entries.Related (fun _ => Similar) siblings siblings') :
    Entries.Related (fun _ => Similar) (withSiblings attributes siblings) (withSiblings others siblings') := by
  induction each generalizing attributes others with
  | nil => exact related
  | @cons sibling sibling' _ _ first _ ih =>
      obtain ⟨name, value⟩ := sibling
      obtain ⟨_, value'⟩ := sibling'
      obtain ⟨rfl, similar⟩ := first
      exact ih (related.put similar)

private theorem matched_addSiblings (draft : Draft) (similar : SimilarItems Similar SameListed item item') :
    Matched (SimilarItems Similar SameListed) (draft.addSiblings item) (draft.addSiblings item') := by
  have given := similar.putNew "attributes" (.record [])
  unfold addSiblings
  refine (given.attributesOf Similar.refl).bind fun attributes others related => ?_
  have dated : Matched (Entries.Related fun _ => Similar) (attributes.filterMapM (draft.siblingOf? attributes))
      (others.filterMapM (draft.siblingOf? others)) := by
    refine .filterMapM (List.Forall₂.imp ?_ related)
    rintro ⟨_, value⟩ ⟨name, value'⟩ ⟨rfl, alike⟩
    exact matched_siblingOf? draft related.keys_eq name alike
  refine dated.bind fun siblings siblings' each => ?_
  cases each with
  | nil => exact .pure given
  | cons first rest =>
      refine (matched_mergeProfiles (given.profilesOf SameListed.same) rfl).bind fun names names' listed => .pure ?_
      exact (given.putAttributes (related_withSiblings related (.cons first rest))).putProfiles listed

theorem Corresponds.matched_addDatetimeSiblings
    (corresponds : Corresponds (SimilarItems Similar SameListed) draft other) :
    Matched (Corresponds (SimilarItems Similar SameListed)) draft.addDatetimeSiblings other.addDatetimeSiblings := by
  have dated {items others : Entries Fields}
      (reorders : Entries.Reorders (SimilarItems Similar SameListed) items others) :
      Matched (Entries.Reorders (SimilarItems Similar SameListed)) (draft.addSiblingsToEach items)
        (draft.addSiblingsToEach others) :=
    reorders.matched_mapEntries fun _ _ _ similar => matched_addSiblings draft similar
  have same : other.addSiblingsToEach = draft.addSiblingsToEach := by
    unfold addSiblingsToEach addSiblings siblingOf? typeOf
    rw [corresponds.attributes]
  unfold addDatetimeSiblings
  rw [corresponds.datetimeEnabled_eq, same]
  refine (Matched.refl _).bind fun enabled _ same => ?_
  subst same
  cases enabled with
  | false => exact .pure corresponds
  | true =>
      refine (dated corresponds.classes).bind fun classes classes' inClasses => ?_
      refine (dated corresponds.objects).bind fun objects objects' inObjects => ?_
      exact .pure { corresponds with classes := inClasses, objects := inObjects }

end Draft

end EventSchema
