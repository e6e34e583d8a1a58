import EventSchema.Proofs.Draft.Attributes
import EventSchema.Proofs.Lineage.Attributes
import EventSchema.Proofs.Order.Mirror
import EventSchema.Proofs.Value.Alike
import EventSchema.Proofs.Value.Single

/-!
Items that are the same up to the order of keys inside their attributes.

An attribute in one place, whose reference is in one place too, keeps its reference when shared objects are
kept in step. So attributes that are alike and refer by the same are treated alike by every pass: what is
asked of them is answered the same, and what they become is alike again.
-/

set_option autoImplicit false

namespace EventSchema

open Value

namespace Draft

variable {value other : Value} {fields others : Fields}

/-! ### Attributes in one place -/

def referring : List Text := ["object_type", "extension", "_source"]

structure Detached (value : Value) : Prop where
  single : value.Single
  keyed : Keyed value
  refers : ∀ key ∈ referring, ∀ part, Entries.get? key value.inner = some part → Plain part

namespace Detached

theorem of_plain (plain : Plain value) (keyed : Keyed value) : Detached value where
  single := by
    rintro mark fields rfl
    exact (plain_object.mp plain).1
  keyed := keyed
  refers key _ part found := by
    cases value with
    | object mark fields => exact (plain_object.mp plain).2.of_get? found
    | null | bool _ | int _ | float _ | text _ | array _ => cases found

theorem unshared (keyed : Keyed value) : Detached value.unshared :=
  of_plain (plain_unshared value) keyed.unshared

theorem put {mark : Option Nat} (detached : Detached (.object mark fields)) (key : Text) (plain : Plain value)
    (keyed : Keyed value) : Detached (.object mark (Entries.put key value fields)) where
  single := by
    rintro _ _ ⟨⟩
    exact detached.single mark fields rfl
  keyed := keyed_object.mpr ((keyed_object.mp detached.keyed).put keyed key)
  refers name member part found := by
    rw [Value.inner, Entries.get?_put] at found
    split at found
    · cases found
      exact plain
    · exact detached.refers name member part found

/-- What an attribute does not refer by may hold objects of other places. -/
theorem putBeside (detached : Detached (.record fields)) {key : Text} (beside : key ∉ referring) (keyed : Keyed value) :
    Detached (.record (Entries.put key value fields)) where
  single := single_record _
  keyed := detached.keyed.put keyed key
  refers name member part found := by
    have other : name ≠ key := by
      rintro rfl
      exact beside member
    rw [record, Value.inner, Entries.get?_put, if_neg other] at found
    exact detached.refers name member part found

theorem sourced (detached : Detached value) (key : Text) : Detached (Lineage.sourced key value) := by
  cases value with
  | object mark fields =>
      rw [Lineage.sourced, Entries.putNew]
      split
      · exact detached
      · exact detached.put "_source" (plain_text key) (keyed_of_not_object rfl)
  | null | bool _ | int _ | float _ | text _ | array _ => exact detached

/-- What is merged over an attribute that stands alone leaves it so. -/
theorem merge {source : Value} (detached : Detached value) (given : Detached source) :
    Detached (value.merge source) where
  single := detached.single.merge given.single
  keyed := Keyed.merge value source detached.keyed given.keyed
  refers key member part found := by
    cases source with
    | object mark added =>
        cases value with
        | object own base =>
            rw [merge_object, Value.inner, get?_mergeFields key base (keyed_object.mp given.keyed).distinct] at found
            have before := detached.refers key member
            have after := given.refers key member
            rw [Value.inner] at before after
            split at found
            · exact before part found
            · rename_i told _
              cases found
              exact after part told
            · rename_i told known
              cases found
              exact Plain.merge _ _ (before _ known) (after _ told)
        | null | bool _ | int _ | float _ | text _ | array _ =>
            rw [merge_apart (Or.inl rfl)] at found
            exact given.refers key member part found
    | null | bool _ | int _ | float _ | text _ | array _ =>
        rw [merge_apart (Or.inr rfl)] at found
        exact given.refers key member part found

/-- Keeping objects in step changes an attribute only inside, and not what it refers by. -/
theorem get?_refresh (detached : Detached value) (known : Occurrences) {key : Text} (member : key ∈ referring) :
    Entries.get? key (value.refresh known).inner = Entries.get? key value.inner := by
  cases value with
  | object mark fields =>
      cases detached.single mark fields rfl
      rw [Value.refresh, current?]
      dsimp only
      rw [Value.inner, Value.inner, get?_refreshFields]
      cases found : Entries.get? key fields with
      | none => rfl
      | some part => rw [Option.map_some, refresh_of_plain known part (detached.refers key member part found)]
  | null | bool _ | int _ | float _ | text _ | array _ => simp only [Value.refresh]

theorem refresh (detached : Detached value) {known : Occurrences} (objects : ∀ entry ∈ known, entry.2.isObject = true)
    (all : ∀ entry ∈ known, Keyed entry.2) : Detached (value.refresh known) where
  single := (renews_refresh objects).single detached.single
  keyed := Keyed.refresh all value detached.keyed
  refers key member part found := by
    rw [detached.get?_refresh known member] at found
    exact detached.refers key member part found

theorem putShared {name : Text} (detached : Detached value) (all : ∀ entry ∈ fields, Detached entry.2) :
    ∀ entry ∈ Value.putShared name value fields, Detached entry.2 := by
  intro entry member
  obtain ⟨before, present, same⟩ := exists_of_mem_refreshFields member
  have held : Detached before := by
    rcases Entries.mem_of_mem_put present with new | old
    · cases new
      exact detached
    · exact all _ old
  exact same ▸ held.refresh (isObject_of_mem_occurrences value) (Keyed.occurrences value detached.keyed)

end Detached

end Draft

namespace Lineage

open Draft (Detached)

/-- Flattening leaves every attribute and what it refers by in one place. -/
theorem hereditary_detached {items : Fields} (own : ∀ key mark item,
    Entries.get? key items = some (.object mark item) → ∀ entry ∈ Entries.attributes item, Detached entry.2) :
    Hereditary items (fun attributes => ∀ entry ∈ attributes, Detached entry.2) where
  empty := List.forall_mem_nil _
  own key mark item found _ := own key mark item found
  root := by
    intro key mark item found entry member
    obtain ⟨origin, before, rfl⟩ := List.mem_map.mp member
    exact (own key mark item found _ (List.mem_of_mem_filter before)).sourced key
  step := by
    intro key mark item found entry member place fields after all ran
    obtain ⟨name, value⟩ := entry
    have given : Detached value := own key mark item found _ member
    have written {value : Value} (detached : Detached value) :
        ∀ entry ∈ Entries.put name value fields, Detached entry.2 := by
      intro entry member
      rcases Entries.mem_of_mem_put member with new | old
      · exact new ▸ detached
      · exact all entry old
    unfold override at ran
    simp only [Value.asFields, ok_bind] at ran
    split at ran
    · rename_i _ _ inner base _ _ known
      have before : Detached (.object inner base) := all _ (Entries.mem_of_get? known)
      have merged := before.merge (Detached.unshared given.keyed)
      refine ⟨_, (pure_eq_ok.mp ran).symm, Detached.putShared ?_ all⟩
      split
      · rename_i source own fields named shape
        rw [shape] at merged
        split
        · exact shape ▸ merged
        · exact merged.put "_source" (before.refers _ (by decide) source named)
            ((keyed_object.mp before.keyed).of_get? named)
      · exact merged
    · exact ⟨_, (pure_eq_ok.mp ran).symm, written ((Detached.unshared given.keyed).sourced key)⟩
    · exact ⟨_, (pure_eq_ok.mp ran).symm, written given⟩
  kept attributes all entry member := all entry (List.mem_of_mem_filter member)

end Lineage

namespace Draft

variable {value other : Value} {fields others : Fields}

/-! ### Attributes that are alike -/

structure Similar (value other : Value) : Prop where
  alike : Alike value other
  refers : ∀ key ∈ referring, Entries.get? key other.inner = Entries.get? key value.inner

def SimilarFields (fields others : Fields) : Prop := Similar (.record fields) (.record others)

theorem Similar.refl (value : Value) : Similar value value := ⟨.same value, fun _ _ => rfl⟩

namespace SimilarFields

theorem refl (fields : Fields) : SimilarFields fields fields := Similar.refl _

theorem alike (similar : SimilarFields fields others) : AlikeFields fields others := Similar.alike similar

theorem get?_eq (similar : SimilarFields fields others) {key : Text} (member : key ∈ referring) :
    Entries.get? key others = Entries.get? key fields := Similar.refers similar key member

private theorem orNull_eq (similar : SimilarFields fields others) {key : Text} (member : key ∈ referring) :
    Entries.orNull key others = Entries.orNull key fields := Entries.orNull_congr (similar.get?_eq member)

theorem put (similar : SimilarFields fields others) (key : Text) (value : Value) :
    SimilarFields (Entries.put key value fields) (Entries.put key value others) where
  alike := similar.alike.put key value
  refers name member := by
    rw [record, record, Value.inner, Value.inner, Entries.get?_put, Entries.get?_put, similar.get?_eq member]

theorem erase (similar : SimilarFields fields others) (key : Text) :
    SimilarFields (Entries.erase key fields) (Entries.erase key others) where
  alike := similar.alike.erase key
  refers name member := by
    rw [record, record, Value.inner, Value.inner, Entries.get?_erase, Entries.get?_erase, similar.get?_eq member]

/-- The scope of a reference is that of what it refers by. -/
theorem extensionOf_eq (similar : SimilarFields fields others) {item item' : Fields}
    (owner : Entries.get? "extension" item' = Entries.get? "extension" item) :
    extensionOf others item' = extensionOf fields item := by
  unfold extensionOf
  rw [similar.orNull_eq (by decide), similar.get?_eq (by decide), Entries.orNull_congr owner]

end SimilarFields

namespace Similar

theorem cases (similar : Similar value other) : value = other ∨ ∃ mark fields others,
    value = .object mark fields ∧ other = .object mark others ∧ SimilarFields fields others := by
  rcases similar.alike.cases with same | ⟨mark, fields, others, rfl, rfl, alike⟩
  · exact .inl same
  · exact .inr ⟨mark, fields, others, rfl, rfl, alike, similar.refers⟩

theorem asFields (similar : Similar value other) : Matched SimilarFields value.asFields other.asFields := by
  rcases similar.cases with rfl | ⟨mark, fields, others, rfl, rfl, inside⟩
  · exact (Matched.refl _).imp fun fields _ same => same ▸ .refl fields
  · exact .ok inside

theorem unshared (similar : Similar value other) : Similar value.unshared other.unshared where
  alike := similar.alike.unshared
  refers key member := by
    rw [inner_unshared, inner_unshared, get?_unsharedFields, get?_unsharedFields, similar.refers key member]

/-- What is kept in step with objects alike stays alike and refers by the same. -/
theorem refresh (similar : Similar value other) (detached : Detached value) (detached' : Detached other)
    {known known' : Occurrences} (occurrences : AlikeOccurrences known known') :
    Similar (value.refresh known) (other.refresh known') where
  alike := similar.alike.refresh occurrences detached.keyed
  refers key member := by
    rw [detached.get?_refresh known member, detached'.get?_refresh known' member, similar.refers key member]

theorem objectTypeOf_eq (similar : Similar value other) (draft : Draft) (name : Text) :
    objectTypeOf draft (name, other) = objectTypeOf draft (name, value) := by
  rcases similar.cases with rfl | ⟨mark, fields, others, rfl, rfl, inside⟩
  · rfl
  · unfold objectTypeOf
    simp only [Value.asFields, ok_bind, inside.orNull_eq (by decide : ("object_type" : Text) ∈ referring),
      inside.extensionOf_eq rfl]

end Similar

/-! ### Items that are alike -/

/-- A field of items that are alike: how their attributes compare one by one, and how their profiles do, is
left open. -/
inductive SimilarField (part profiles : Value → Value → Prop) (key : Text) : Value → Value → Prop where
  | same (value : Value) : SimilarField part profiles key value value
  | attributes {mark : Option Nat} {fields others : Fields} (named : key = "attributes")
      (each : Entries.Related (fun _ => part) fields others) :
      SimilarField part profiles key (.object mark fields) (.object mark others)
  | profiles {value other : Value} (named : key = "profiles") (similar : profiles value other) :
      SimilarField part profiles key value other

def SimilarItems (part profiles : Value → Value → Prop) (item other : Fields) : Prop :=
  Entries.Related (SimilarField part profiles) item other

namespace SimilarItems

variable {part profiles : Value → Value → Prop} {item other : Fields}

theorem refl (part profiles : Value → Value → Prop) (item : Fields) : SimilarItems part profiles item item :=
  List.forall₂_same.mpr fun entry _ => ⟨rfl, .same entry.2⟩

theorem imp {part' profiles' : Value → Value → Prop} (similar : SimilarItems part profiles item other)
    (parts : ∀ value other, part value other → part' value other)
    (each : ∀ value other, profiles value other → profiles' value other) : SimilarItems part' profiles' item other :=
  Entries.Related.imp (fun _ _ _ field => by
    cases field with
    | same => exact .same _
    | attributes named inside => exact .attributes named (Entries.Related.imp (fun _ => parts) inside)
    | profiles named held => exact .profiles named (each _ _ held)) similar

theorem get? (similar : SimilarItems part profiles item other) (key : Text) :
    Option.Rel (SimilarField part profiles key) (Entries.get? key item) (Entries.get? key other) := by
  cases found : Entries.get? key item with
  | none =>
      have absent : Entries.get? key other = none := by
        rw [Entries.get?_eq_none_iff] at found ⊢
        rwa [Entries.Related.keys_eq similar]
      rw [absent]
      exact .none
  | some value =>
      obtain ⟨result, held, field⟩ := Entries.Related.get?_left similar found
      rw [held]
      exact .some field

theorem get?_eq (similar : SimilarItems part profiles item other) {key : Text} (notAttributes : key ≠ "attributes")
    (notProfiles : key ≠ "profiles") : Entries.get? key other = Entries.get? key item := by
  have here := similar.get? key
  generalize Entries.get? key item = one, Entries.get? key other = two at here
  cases here with
  | none => rfl
  | some field =>
      cases field with
      | same => rfl
      | attributes named => exact absurd named notAttributes
      | profiles named => exact absurd named notProfiles

theorem profilesOf (refl : ∀ value, profiles value value) (similar : SimilarItems part profiles item other) :
    Option.Rel profiles (Entries.get? "profiles" item) (Entries.get? "profiles" other) := by
  have here := similar.get? "profiles"
  generalize Entries.get? "profiles" item = one, Entries.get? "profiles" other = two at here ⊢
  cases here with
  | none => exact .none
  | some field =>
      cases field with
      | same => exact .some (refl _)
      | attributes named => exact absurd named (by decide)
      | profiles _ similar => exact .some similar

theorem get?_profiles (similar : SimilarItems part Eq item other) :
    Entries.get? "profiles" other = Entries.get? "profiles" item := by
  have related := similar.profilesOf fun _ => rfl
  generalize Entries.get? "profiles" item = one, Entries.get? "profiles" other = two at related
  cases related with
  | none => rfl
  | some same => rw [same]

/-- Attributes that can be opened on one side, can be on the other, and are alike one by one. -/
theorem attributes (refl : ∀ value, part value value) (similar : SimilarItems part profiles item other) :
    Option.Rel (fun value other => Matched (Entries.Related fun _ => part) value.asFields other.asFields)
      (Entries.get? "attributes" item) (Entries.get? "attributes" other) := by
  have here := similar.get? "attributes"
  generalize Entries.get? "attributes" item = one, Entries.get? "attributes" other = two at here ⊢
  cases here with
  | none => exact .none
  | some field =>
      cases field with
      | same =>
          refine .some ((Matched.refl _).imp fun fields _ same => ?_)
          exact same ▸ List.forall₂_same.mpr fun entry _ => ⟨rfl, refl entry.2⟩
      | attributes _ each => exact .some (.ok each)
      | profiles named => exact absurd named (by decide)

theorem attributesOf (refl : ∀ value, part value value) (similar : SimilarItems part profiles item other) :
    Matched (Entries.Related fun _ => part) (attributesOf item) (attributesOf other) := by
  unfold Draft.attributesOf Entries.orEmpty Entries.getOr
  have here := similar.attributes refl
  generalize Entries.get? "attributes" item = one, Entries.get? "attributes" other = two at here ⊢
  cases here with
  | none => exact .ok .nil
  | some opened => exact opened

theorem relatedAttributes (refl : ∀ value, part value value) (similar : SimilarItems part profiles item other) :
    Entries.Related (fun _ => part) (Entries.attributes item) (Entries.attributes other) := by
  have here := similar.get? "attributes"
  unfold Entries.attributes
  generalize Entries.get? "attributes" item = one, Entries.get? "attributes" other = two at here ⊢
  have itself (fields : Fields) : Entries.Related (fun _ => part) fields fields :=
    List.forall₂_same.mpr fun entry _ => ⟨rfl, refl entry.2⟩
  cases here with
  | none => exact itself []
  | some field =>
      cases field with
      | same => exact itself _
      | attributes _ each => exact each
      | profiles named => exact absurd named (by decide)

theorem put (similar : SimilarItems part profiles item other) (key : Text) (value : Value) :
    SimilarItems part profiles (Entries.put key value item) (Entries.put key value other) :=
  Entries.Related.put similar (.same value)

theorem putNew (similar : SimilarItems part profiles item other) (key : Text) (value : Value) :
    SimilarItems part profiles (Entries.putNew key value item) (Entries.putNew key value other) := by
  have held : Entries.has key other = Entries.has key item := Entries.has_congr (Entries.Related.keys_eq similar) key
  unfold Entries.putNew
  rw [held]
  split
  · exact similar
  · exact similar.put key value

theorem putAttributes (similar : SimilarItems part profiles item other) {fields others : Fields}
    (each : Entries.Related (fun _ => part) fields others) :
    SimilarItems part profiles (Entries.put "attributes" (.record fields) item)
      (Entries.put "attributes" (.record others) other) :=
  Entries.Related.put similar (.attributes rfl each)

theorem putProfiles (similar : SimilarItems part profiles item other) {value result : Value}
    (held : profiles value result) :
    SimilarItems part profiles (Entries.put "profiles" value item) (Entries.put "profiles" result other) :=
  Entries.Related.put similar (.profiles rfl held)

end SimilarItems

/-! ### The passes over one item -/

section Passes

open Act (Mirrors steady_lift steady_forIn steady_warn steady_note steady_pure)

variable {profiles : Value → Value → Prop} {item other : Fields} (draft : Draft) (kind : ItemKind) (key : Text)

theorem mirrors_checkProfiles (object : draft.profiles.isObject = true) (similar : SimilarItems Similar Eq item other) :
    (checkProfiles draft kind key item).Mirrors (fun _ _ => True) (checkProfiles draft kind key other) := by
  unfold checkProfiles
  rw [similar.get?_profiles]
  refine (Mirrors.of_steady (steady_lift _)).bind fun listed _ equal => ?_
  cases equal
  refine (Mirrors.of_steady (steady_forIn _ fun profile _ _ => ?_)).bind fun _ _ _ => ?_
  · refine (steady_lift _).bind fun known => ?_
    split
    · exact (steady_warn rfl).bind fun _ => steady_pure _
    · exact steady_pure _
  · refine (Mirrors.lift (similar.attributesOf Similar.refl)).bind fun attributes others related => ?_
    refine (Mirrors.forIn (List.Forall₂.imp ?_ related)).bind fun _ _ _ => .pure trivial
    rintro ⟨_, value⟩ ⟨name, value'⟩ ⟨rfl, alike⟩
    refine (Mirrors.lift alike.asFields).bind fun field field' inside => ?_
    have profile := inside.alike.orNull "profile"
    dsimp only
    rw [← profile.truthy_eq]
    split
    · have asked : (Entries.orNull "profile" field').member draft.profiles =
          (Entries.orNull "profile" field).member draft.profiles := by
        cases shape : draft.profiles with
        | object mark fields => exact (profile.member_object fields).symm
        | null | bool _ | int _ | float _ | text _ | array _ =>
            rw [shape] at object
            cases object
      rw [asked]
      refine (Mirrors.of_steady (steady_lift _)).bind fun known _ equal => ?_
      cases equal
      split
      · exact (Mirrors.warn _ _).bind fun _ _ _ => .pure rfl
      · exact .pure rfl
    · exact .pure rfl

theorem mirrors_verify (similar : SimilarItems Similar profiles item other) :
    (verify draft kind key item).Mirrors (fun _ _ => True) (verify draft kind key other) := by
  unfold verify
  rw [similar.get?_eq (by decide) (by decide)]
  extract_lets deprecated check check'
  have checked : (check ()).Mirrors (fun _ _ => True) (check' ()) := by
    refine (Mirrors.lift (similar.attributesOf Similar.refl)).bind fun attributes others related => ?_
    refine (Mirrors.forIn (List.Forall₂.imp ?_ related)).bind fun _ _ _ => .pure trivial
    rintro ⟨_, value⟩ ⟨name, value'⟩ ⟨rfl, alike⟩
    dsimp -zeta only
    cases Entries.get? name draft.attributes with
    | none => exact (Mirrors.warn _ _).bind fun _ _ _ => .pure rfl
    | some shared =>
        refine (Mirrors.of_steady (steady_lift _)).bind fun shared _ equal => ?_
        cases equal
        have described : holds value' "description" = holds value "description" :=
          (alike.alike.member_text "description").symm
        extract_lets description describe describe'
        have told : (describe ()).Mirrors Eq (describe' ()) := by
          unfold describe describe'
          rw [described]
          refine (Mirrors.of_steady (steady_lift _)).bind fun own _ equal => ?_
          cases equal
          split
          · refine (Mirrors.of_steady (steady_lift _)).bind fun generic _ equal => ?_
            cases equal
            split
            · exact (Mirrors.warn _ _).bind fun _ _ _ => .pure rfl
            · exact .pure rfl
          · exact .pure rfl
        split
        · exact (Mirrors.note _ _).bind fun _ _ _ => told
        · exact told
  split
  · exact (Mirrors.note _ _).bind fun _ _ _ => checked
  · exact checked

theorem filterMap_eq {α β γ : Type} {choose : α → Option γ} {choose' : β → Option γ} {items : List α} {others : List β}
    (each : List.Forall₂ (fun item other => choose item = choose' other) items others) :
    items.filterMap choose = others.filterMap choose' := by
  induction each with
  | nil => rfl
  | cons first _ ih => rw [List.filterMap_cons, List.filterMap_cons, first, ih]

/-- Missing requirements are filled in alike, and the same attributes had none. -/
theorem matched_fillRequirements {attributes others : Fields}
    (related : Entries.Related (fun _ => Similar) attributes others) :
    Matched (fun filled filled' => Entries.Related (fun _ => Similar) filled.1 filled'.1 ∧ filled.2 = filled'.2)
      (fillRequirements attributes) (fillRequirements others) := by
  refine (show Matched (List.Forall₂ fun (done done' : (Text × Value) × Option Text) =>
      (done'.1.1 = done.1.1 ∧ Similar done.1.2 done'.1.2) ∧ done.2 = done'.2) _ _ from
    .mapM (List.Forall₂.imp ?_ related)).bind fun filled filled' done => .pure ⟨?_, ?_⟩
  · rintro ⟨_, value⟩ ⟨name, value'⟩ ⟨rfl, alike⟩
    refine alike.asFields.bind fun field field' inside => ?_
    rw [← (inside.alike.orNull "requirement").isNull_eq]
    split
    · exact .pure ⟨⟨rfl, inside.put _ _⟩, rfl⟩
    · exact .pure ⟨⟨rfl, alike⟩, rfl⟩
  · exact List.forall₂_map_left_iff.mpr (List.forall₂_map_right_iff.mpr (done.imp fun _ _ held => held.1))
  · exact filterMap_eq (done.imp fun _ _ held => held.2)

theorem matched_requireItem (similar : SimilarItems Similar profiles item other) :
    Matched (fun done done' => SimilarItems Similar profiles done.1 done'.1 ∧ done.2 = done'.2)
      (requireItem kind key item) (requireItem kind key other) := by
  unfold requireItem
  have opened := similar.attributes Similar.refl
  generalize Entries.get? "attributes" item = one, Entries.get? "attributes" other = two at opened ⊢
  cases opened with
  | none => exact .pure ⟨similar, rfl⟩
  | some opened =>
      refine opened.bind fun attributes others related => ?_
      refine (matched_fillRequirements related).bind fun filled filled' done => ?_
      obtain ⟨filled, names⟩ := filled
      obtain ⟨filled', names'⟩ := filled'
      obtain ⟨each, rfl⟩ := done
      dsimp only
      split
      · exact .pure ⟨similar.putAttributes each, rfl⟩
      · exact .pure ⟨similar.putAttributes each, rfl⟩

theorem matched_siblingOf? {attributes others : Fields} (keys : Entries.keys others = Entries.keys attributes)
    (name : Text) {value value' : Value} (alike : Similar value value') :
    Matched (Option.Rel fun sibling sibling' => sibling'.1 = sibling.1 ∧ Similar sibling.2 sibling'.2)
      (siblingOf? draft attributes (name, value)) (siblingOf? draft others (name, value')) := by
  refine alike.unshared.asFields.bind fun field field' inside => ?_
  have typed : Matched Alike (typeOf draft name field) (typeOf draft name field') := by
    have type := inside.alike.orNull "type"
    unfold typeOf
    extract_lets own own'
    rw [← type.truthy_eq]
    split
    · exact .pure type
    · exact (Matched.refl _).bind fun shared _ same => same ▸ .pure (.same _)
  refine typed.bind fun type type' alike => ?_
  extract_lets sibling
  rw [← alike.equals_text, Entries.has_congr keys]
  split
  · exact .pure (.some ⟨rfl, ((inside.erase "type").put _ _).put _ _⟩)
  · exact .pure .none

/-- A reference names its object, whatever else the attribute has. -/
theorem matched_refer (objects : Entries Fields) (target : Value) {field field' : Fields}
    (alike : AlikeFields field field') : Matched AlikeFields (refer objects target field)
      (refer objects target field') :=
  (Matched.refl _).bind fun _ _ same => same ▸ .pure (((alike.put _ _).put _ _).put _ _)

private theorem matched_finishAttribute (keyed : ∀ entry ∈ draft.attributes, Keyed entry.2)
    (owner : Entries.get? "extension" other = Entries.get? "extension" item) (name : Text) {value value' : Value}
    (alike : Similar value value') :
    Matched Alike (draft.finishAttribute item name value) (draft.finishAttribute other name value') := by
  unfold finishAttribute
  extract_lets merged merged'
  have written : Alike merged merged' := by
    unfold merged merged'
    cases found : Entries.get? name draft.attributes with
    | none => exact alike.alike
    | some shared => exact alike.alike.mergeInto (keyed _ (Entries.mem_of_get? found)).unshared
  refine alike.asFields.bind fun field field' inside => ?_
  rw [inside.orNull_eq (by decide), inside.extensionOf_eq owner]
  extract_lets type
  split
  · refine (Matched.refl _).bind fun scope _ same => same ▸ (Matched.refl _).bind fun found _ same => same ▸ ?_
    cases found with
    | none => exact .pure written
    | some target =>
        refine Matched.bind (fun _ opened => written.asFields opened) fun fields fields' opened => ?_
        exact (matched_refer _ target opened).bind fun _ _ alike => .pure alike
  · exact .pure written

theorem matched_finishItem (keyed : ∀ entry ∈ draft.attributes, Keyed entry.2)
    (similar : SimilarItems Similar profiles item other) :
    Matched (SimilarItems Alike profiles) (draft.finishItem item) (draft.finishItem other) := by
  refine (similar.attributesOf Similar.refl).bind fun attributes others related => ?_
  refine (show Matched (Entries.Related fun _ => Alike) _ _ from
    .mapM (List.Forall₂.imp ?_ related)).bind fun finished finished' each => ?_
  · rintro ⟨_, value⟩ ⟨name, value'⟩ ⟨rfl, alike⟩
    have owner : Entries.get? "extension" other = Entries.get? "extension" item :=
      similar.get?_eq (by decide) (by decide)
    exact (matched_finishAttribute draft keyed owner name alike).bind fun _ _ alike => .pure ⟨rfl, alike⟩
  · exact .pure ((similar.imp (fun _ _ similar => similar.alike) fun _ _ held => held).putAttributes each)

end Passes

end Draft

end EventSchema
