import EventSchema.Proofs.Draft.Links
import EventSchema.Proofs.Ensures
import EventSchema.Proofs.Order.Profiles

/-!
References of items in another order.

Whether the references of an item can be told depends on the item alone, and each index lists under a key
the references of the items that refer to it. So items in another order have the same references under each
key, in another order.
-/

set_option autoImplicit false

namespace EventSchema

open Value

/-! ### Indexes without empty lists -/

/-- Lists that are missing rather than empty are compared as if the missing ones were empty. -/
theorem rel_perm_of_getD {α : Type} {known known' : Option (List α)} (filled : known ≠ some [])
    (filled' : known' ≠ some []) (perm : (known.getD []).Perm (known'.getD [])) :
    Option.Rel List.Perm known known' := by
  cases known with
  | none =>
      cases known' with
      | none => exact .none
      | some others => exact absurd (congrArg some (List.nil_perm.mp perm)) filled'
  | some items =>
      cases known' with
      | none => exact absurd (congrArg some (List.perm_nil.mp perm)) filled
      | some others => exact .some perm

private theorem Entries.put_ne_nil {α : Type} (key : Text) (value : α) (entries : Entries α) :
    put key value entries ≠ [] := by
  intro empty
  have held := get?_put_self key value entries
  rw [empty] at held
  cases held

namespace Links

structure Filled (links : Links) : Prop where
  objects : ∀ key : Value, key.isKey = true → Index.get? key links.objects ≠ some []
  attributes : ∀ name, Entries.get? name links.attributes ≠ some []
  profiles : ∀ key : Value, key.isKey = true → Index.get? key links.profiles ≠ some []

variable {link : Link} {links after : Links}

private theorem filled_alter {α : Type} {key : Value} {change : Option (List α) → List α} {index : Index (List α)}
    (isKey : key.isKey = true) (filled : ∀ asked : Value, asked.isKey = true → Index.get? asked index ≠ some [])
    (each : ∀ known, known ≠ some [] → change known ≠ []) :
    ∀ asked : Value, asked.isKey = true → Index.get? asked (Index.alter key change index) ≠ some [] := by
  intro asked isKey'
  rw [Index.get?_alter isKey isKey']
  split
  · exact fun empty => each _ (filled asked isKey') (Option.some.inj empty)
  · exact filled asked isKey'

private theorem filled_addAttribute {entry : Text × Value} (filled : Filled links)
    (ran : addAttribute link links entry = .ok after) : Filled after := by
  have users : ∀ name, Entries.get? name (Entries.put entry.1
      ((Entries.get? entry.1 links.attributes).getD [] ++ [link]) links.attributes) ≠ some [] := by
    intro name
    rw [Entries.get?_put]
    split
    · exact fun empty => List.append_ne_nil_of_right_ne_nil _ (List.cons_ne_nil _ _) (Option.some.inj empty)
    · exact filled.attributes name
  unfold addAttribute at ran
  obtain ⟨field, _, ran⟩ := bind_eq_ok.mp ran
  split at ran
  · dsimp only at ran
    split at ran
    · rename_i isKey
      rw [← pure_eq_ok.mp ran]
      refine ⟨filled_alter isKey filled.objects fun known given => ?_, users, filled.profiles⟩
      dsimp only
      split
      · rename_i other found
        split
        · intro empty
          rw [empty] at found
          cases found
        · exact Entries.put_ne_nil _ _ _
      · exact Entries.put_ne_nil _ _ _
    · cases ran
  · rw [← pure_eq_ok.mp ran]
    exact ⟨filled.objects, users, filled.profiles⟩

private theorem filled_addProfile {profile : Value} (filled : Filled links) (ran : addProfile link links profile =
    .ok after) :
    Filled after := by
  unfold addProfile at ran
  split at ran
  · rename_i isKey
    cases ran
    exact ⟨filled.objects, filled.attributes, filled_alter isKey filled.profiles fun known _ =>
      List.append_ne_nil_of_right_ne_nil _ (List.cons_ne_nil _ _)⟩
  · cases ran

private theorem filled_ofItems {classes objects : Entries Fields} (ran : ofItems classes objects = .ok after) :
    Filled after := by
  rw [ofItems_eq] at ran
  have start : Filled {} := ⟨by simp [Index.get?], by simp, by simp [Index.get?]⟩
  refine foldlM_invariant ran start fun links member next _ filled ran => ?_
  unfold addItem at ran
  obtain ⟨attributes, _, ran⟩ := bind_eq_ok.mp ran
  obtain ⟨middle, first, ran⟩ := bind_eq_ok.mp ran
  obtain ⟨profiles, _, ran⟩ := bind_eq_ok.mp ran
  exact foldlM_invariant ran (foldlM_invariant first filled fun _ _ _ _ filled ran => filled_addAttribute filled ran)
    fun _ _ _ _ filled ran => filled_addProfile filled ran

/-! ### Items with references -/

/-- The references of an item can be told: its attributes are objects, what they refer to are keys, and so
are its profiles. -/
structure Linkable (item : Fields) : Prop extends Draft.Listed item where
  opened : Draft.attributesOf item = .ok (Entries.attributes item)
  each : ∀ entry ∈ Entries.attributes item, ∃ field, entry.2.asFields = .ok field ∧
    ((Entries.orNull "type" field).equals (.text "object_t") = true → (Entries.orNull "object_type" field).isKey = true)

private theorem linkable_of_addItem {group key : Text} {item : Fields} (ran : addItem group links (key, item) =
    .ok after) :
    Linkable item := by
  unfold addItem at ran
  obtain ⟨attributes, opened, ran⟩ := bind_eq_ok.mp ran
  obtain ⟨middle, first, ran⟩ := bind_eq_ok.mp ran
  obtain ⟨profiles, listed, ran⟩ := bind_eq_ok.mp ran
  have attributesSame := Draft.attributes_of_ok opened
  have profilesSame : Entries.profiles item = profiles := Entries.profiles_of_ok listed
  refine ⟨⟨profilesSame ▸ listed, fun profile member => ?_⟩, attributesSame ▸ opened, fun entry member => ?_⟩
  · obtain ⟨_, _, ran⟩ := exists_step_of_foldlM ran (profilesSame ▸ member)
    exact (addProfile_ok ran).1
  · obtain ⟨_, _, ran⟩ := exists_step_of_foldlM first (attributesSame ▸ member)
    unfold addAttribute at ran
    obtain ⟨field, opened, ran⟩ := bind_eq_ok.mp ran
    refine ⟨field, opened, fun type => ?_⟩
    rw [if_pos type] at ran
    dsimp only at ran
    split at ran
    · assumption
    · cases ran

theorem Linkable.addItem {item : Fields} (linkable : Linkable item) (group key : Text) (links : Links) :
    Ensures (addItem group links (key, item)) fun _ => True := by
  unfold Links.addItem
  have added : Ensures ((Entries.attributes item).foldlM (addAttribute (linkOf group key item)) links) fun _ =>
    True := by
    refine .foldlM trivial fun links entry member _ => ?_
    obtain ⟨field, opened, key⟩ := linkable.each entry member
    unfold addAttribute
    dsimp only
    rw [opened, ok_bind]
    split
    · rename_i type
      rw [if_pos (key type)]
      exact .pure trivial
    · exact .pure trivial
  have listed : (Value.orElse (Entries.get? "profiles" item) (.array [])).iterate = .ok (Entries.profiles item) :=
    linkable.listed
  dsimp only
  rw [linkable.opened, ok_bind]
  refine added.bind fun links _ => ?_
  rw [listed, ok_bind]
  refine .foldlM trivial fun links profile member _ => ?_
  rw [addProfile, if_pos (linkable.keys profile member)]
  exact .ok trivial

private theorem exists_ofItems {classes objects : Entries Fields}
    (each : ∀ member ∈ members classes objects, Linkable member.item) :
    Ensures (ofItems classes objects) fun _ => True := by
  rw [ofItems_eq]
  exact .foldlM trivial fun links member present _ => (each member present).addItem member.group member.key links

private theorem linkable_of_ofItems {classes objects : Entries Fields} (ran : ofItems classes objects = .ok after) :
    ∀ member ∈ members classes objects, Linkable member.item := by
  intro member present
  rw [ofItems_eq] at ran
  obtain ⟨_, _, ran⟩ := exists_step_of_foldlM ran present
  exact linkable_of_addItem ran

end Links

/-! ### Items that are alike -/

private theorem Value.Alike.same_eq {value other key : Value} (alike : Alike value other) (isKey : key.isKey = true) :
    other.same key = value.same key := by
  obtain rfl | ⟨mark, fields, others, rfl, rfl, _⟩ := alike.cases
  · rfl
  · have parted (fields : Fields) : (Value.object mark fields).same key = false := by
      refine Bool.eq_false_iff.mpr fun equal => ?_
      rw [← isKey_of_same equal] at isKey
      cases isKey
    rw [parted, parted]

namespace Links

private theorem refersBy_eq {value other key : Value} (alike : Alike value other) (isKey : key.isKey = true) :
    refersBy key other = refersBy key value := by
  obtain rfl | ⟨_, _, _, rfl, rfl, inside⟩ := alike.cases
  · rfl
  · rw [refersBy, refersBy, (inside.orNull "type").equals_text, (inside.orNull "object_type").same_eq isKey]

private theorem namesBy_eq {key : Value} {attributes others : Fields}
    (related : Entries.Related (fun _ => Alike) attributes others) (isKey : key.isKey = true) : namesBy key others =
      namesBy key attributes := by
  unfold namesBy
  induction related with
  | nil => rfl
  | cons first _ ih =>
      rw [List.filter_cons, List.filter_cons, refersBy_eq first.2 isKey]
      split
      · exact congrArg₂ List.cons first.1 ih
      · exact ih

end Links

theorem Value.SameListed.isIn_eq {names others : List Value} (listed : SameListed (.array names) (.array others))
    {key : Value} (isKey : key.isKey = true) : key.isIn others = key.isIn names := by
  cases listed with
  | same => rfl
  | listed keys _ same => exact same.isIn_eq keys isKey

namespace Draft.SimilarItems

variable {item other : Fields}

theorem listed (similar : SimilarItems Alike SameListed item other) :
    Matched (fun names others => SameListed (.array names) (.array others))
      (itemsOrNone (Entries.get? "profiles" item)) (itemsOrNone (Entries.get? "profiles" other)) ∧
    SameListed (.array (Entries.profiles item)) (.array (Entries.profiles other)) := by
  have here := similar.profilesOf SameListed.same
  unfold Entries.profiles
  generalize Entries.get? "profiles" item = one, Entries.get? "profiles" other = two at here
  cases here with
  | none => exact ⟨.ok (.same _), .same _⟩
  | some listed =>
      cases listed with
      | same => exact ⟨(Matched.refl _).imp fun names _ same => same ▸ .same _, .same _⟩
      | @listed names others keys apart same =>
          rw [itemsOrNone_array, itemsOrNone_array]
          exact ⟨.ok (.listed keys apart same), .listed keys apart same⟩

private theorem linkable (similar : SimilarItems Alike SameListed item other) (given : Links.Linkable item) :
    Links.Linkable other := by
  obtain ⟨names, listed, same⟩ := similar.listed.1 _ given.listed
  obtain ⟨attributes, opened, related⟩ := similar.attributesOf Alike.same _ given.opened
  have told : Entries.profiles other = names := Entries.profiles_of_ok listed
  have shown := attributes_of_ok opened
  subst shown
  refine ⟨⟨told ▸ listed, fun profile member => ?_⟩, opened, fun entry member => ?_⟩
  · cases same with
    | same => exact given.keys profile (told ▸ member)
    | listed keys _ same => exact same.keys keys profile (told ▸ member)
  · obtain ⟨value, present, alike⟩ := related.mem_right member
    obtain ⟨field, read, refers⟩ := given.each _ present
    obtain ⟨field', read', inside⟩ := alike.asFields read
    refine ⟨field', read', fun type => ?_⟩
    rw [← (inside.orNull "object_type").isKey_eq]
    exact refers (by rwa [(inside.orNull "type").equals_text])

end Draft.SimilarItems

structure Member.Alike (member other : Member Fields) : Prop where
  group : other.group = member.group
  key : other.key = member.key
  item : Draft.SimilarItems Value.Alike SameListed member.item other.item

namespace Member.Alike

variable {member other : Member Fields}

private theorem linkTo_eq (alike : Member.Alike member other) : Links.linkTo other = Links.linkTo member := by
  have same {key : Text} (notAttributes : key ≠ "attributes") (notProfiles : key ≠ "profiles") :=
    alike.item.get?_eq notAttributes notProfiles
  unfold Links.linkTo Links.linkOf Entries.orNull Entries.getOr
  rw [alike.group, alike.key, same (by decide) (by decide), same (by decide) (by decide), same (by decide) (by decide)]

theorem attributes (alike : Member.Alike member other) :
    Entries.Related (fun _ => Value.Alike) (Entries.attributes member.item) (Entries.attributes other.item) :=
  alike.item.relatedAttributes Value.Alike.same

theorem apart (alike : Member.Alike member other) (apart : Apart (Entries.profiles member.item)) :
    Apart (Entries.profiles other.item) := by
  have listed := alike.item.listed.2
  generalize Entries.profiles member.item = names, Entries.profiles other.item = others at apart listed
  cases listed with
  | same => exact apart
  | listed keys _ same => exact same.apart keys apart

end Member.Alike

private theorem members_alike {classes objects classes' objects' : Entries Fields}
    (inClasses : Entries.Reorders (Draft.SimilarItems Value.Alike SameListed) classes classes')
    (inObjects : Entries.Reorders (Draft.SimilarItems Value.Alike SameListed) objects objects') :
    ∃ middle, (members classes objects).Perm middle ∧ List.Forall₂ Member.Alike middle (members classes' objects') := by
  obtain ⟨_, between, perm, related⟩ := inClasses
  obtain ⟨_, between', perm', related'⟩ := inObjects
  refine ⟨members between between', (perm.map _).append (perm'.map _), List.rel_append ?_ ?_⟩
  · exact List.forall₂_map_left_iff.mpr (List.forall₂_map_right_iff.mpr (List.Forall₂.imp
      (fun _ _ held => ⟨congrArg Links.classGroup held.1, held.1, held.2⟩) related))
  · exact List.forall₂_map_left_iff.mpr (List.forall₂_map_right_iff.mpr (List.Forall₂.imp
      (fun _ _ held => ⟨rfl, held.1, held.2⟩) related'))

/-! ### The indexes -/

namespace Links

structure Alike (links others : Links) : Prop where
  objects : ∀ key : Value, key.isKey = true →
    Option.Rel List.Perm (Index.get? key links.objects) (Index.get? key others.objects)
  attributes : ∀ name, Option.Rel List.Perm (Entries.get? name links.attributes) (Entries.get? name others.attributes)
  profiles : ∀ key : Value, key.isKey = true →
    Option.Rel List.Perm (Index.get? key links.profiles) (Index.get? key others.profiles)

private theorem flatMap_perm {α β γ : Type} {items middle : List α} {others : List β} {tell : α → List γ}
    {tell' : β → List γ}
    (perm : items.Perm middle) (each : List.Forall₂ (fun item other => tell' other = tell item) middle others) :
    (items.flatMap tell).Perm (others.flatMap tell') := by
  have same : others.flatMap tell' = middle.flatMap tell := by
    induction each generalizing items with
    | nil => rfl
    | cons first _ ih => rw [List.flatMap_cons, List.flatMap_cons, first, ih .rfl]
  rw [same]
  exact perm.flatMap_right tell

private theorem filter_map_perm {α β γ : Type} {items middle : List α} {others : List β} {keep : α → Bool}
    {keep' : β → Bool}
    {tell : α → γ} {tell' : β → γ} (perm : items.Perm middle)
    (each : List.Forall₂ (fun item other => keep' other = keep item ∧ tell' other = tell item) middle others) :
    ((items.filter keep).map tell).Perm ((others.filter keep').map tell') := by
  have same : (others.filter keep').map tell' = (middle.filter keep).map tell := by
    induction each generalizing items with
    | nil => rfl
    | cons first _ ih =>
        rw [List.filter_cons, List.filter_cons, first.1]
        split
        · exact congrArg₂ List.cons first.2 (ih .rfl)
        · exact ih .rfl
  rw [same]
  exact (perm.filter keep).map tell

private theorem ensures_ofItems {classes objects classes' objects' : Entries Fields}
    (inClasses : Entries.Reorders (Draft.SimilarItems Value.Alike SameListed) classes classes')
    (inObjects : Entries.Reorders (Draft.SimilarItems Value.Alike SameListed) objects objects')
    {links : Links} (ran : ofItems classes objects = .ok links) :
    Ensures (ofItems classes' objects') fun _ => True := by
  obtain ⟨middle, perm, related⟩ := members_alike inClasses inObjects
  refine exists_ofItems fun other present => ?_
  obtain ⟨member, among, alike⟩ := exists_left_of_mem related present
  exact alike.item.linkable (linkable_of_ofItems ran member (perm.mem_iff.mpr among))

theorem matched_ofItems {classes objects classes' objects' : Entries Fields}
    (inClasses : Entries.Reorders (Draft.SimilarItems Value.Alike SameListed) classes classes')
    (inObjects : Entries.Reorders (Draft.SimilarItems Value.Alike SameListed) objects objects')
    (distinct : ∀ member ∈ members classes objects, Entries.Distinct (Entries.attributes member.item))
    (apart : ∀ member ∈ members classes objects, Apart (Entries.profiles member.item)) :
    Matched Alike (ofItems classes objects) (ofItems classes' objects') := by
  intro links ran
  obtain ⟨others, ran', _⟩ := ensures_ofItems inClasses inObjects ran
  obtain ⟨middle, perm, related⟩ := members_alike inClasses inObjects
  have again : ∀ other ∈ members classes' objects',
      Entries.Distinct (Entries.attributes other.item) ∧ Apart (Entries.profiles other.item) := by
    intro other present
    obtain ⟨member, among, alike⟩ := exists_left_of_mem related present
    rw [← perm.mem_iff] at among
    exact ⟨alike.attributes.distinct (distinct member among), alike.apart (apart member among)⟩
  obtain ⟨users, profiled, referrers⟩ := ofItems_under distinct apart
    (nodup_groupKey inClasses.distinct inObjects.distinct) ran
  obtain ⟨users', profiled', referrers'⟩ := ofItems_under (fun other present => (again other present).1)
    (fun other present => (again other present).2)
    (nodup_groupKey inClasses.distinct_right inObjects.distinct_right) ran'
  have filled := filled_ofItems ran
  have filled' := filled_ofItems ran'
  refine ⟨others, ran', fun key isKey => ?_, fun name => ?_, fun key isKey => ?_⟩
  · refine rel_perm_of_getD (filled.objects key isKey) (filled'.objects key isKey) ?_
    change (Index.under key links.objects).Perm (Index.under key others.objects)
    rw [referrers key isKey, referrers' key isKey]
    refine flatMap_perm perm (related.imp fun member other alike => ?_)
    rw [alike.linkTo_eq, namesBy_eq alike.attributes isKey]
  · refine rel_perm_of_getD (filled.attributes name) (filled'.attributes name) ?_
    change (ofAttribute name links).Perm (ofAttribute name others)
    rw [users, users']
    refine filter_map_perm perm (related.imp fun member other alike => ⟨?_, alike.linkTo_eq⟩)
    rw [alike.attributes.keys_eq]
  · refine rel_perm_of_getD (filled.profiles key isKey) (filled'.profiles key isKey) ?_
    change (Index.under key links.profiles).Perm (Index.under key others.profiles)
    rw [profiled key isKey, profiled' key isKey]
    refine filter_map_perm perm (related.imp fun member other alike => ⟨?_, alike.linkTo_eq⟩)
    exact alike.item.listed.2.isIn_eq isKey

end Links

end EventSchema
