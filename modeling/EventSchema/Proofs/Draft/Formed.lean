import EventSchema.Proofs.Draft.Declared

/-!
Drafts whose parts are of the shapes that the schema language asks for.

On such a draft no step stops, and each step leaves such a draft. Here are the steps up to the
identifiers of the classes: the dictionary is resolved, and every class gets its uids.
-/

set_option autoImplicit false

namespace EventSchema

open Value

namespace Draft

def IsCategory (value : Value) : Prop :=
  ∃ fields, value = .record fields ∧ ∃ n : Int, Entries.getOr "uid" fields (.int 0) = .int n

def Described (value : Value) : Prop :=
  ∀ description, Entries.get? "description" value.inner = some description → ∃ text : Text, description = .text text

/-- A draft of the shapes that the schema language asks for. -/
structure Formed (ids : Text → Prop) (draft : Draft) : Prop where
  attributes : AreAttributes ids draft.attributes
  described : ∀ entry ∈ draft.attributes, Described entry.2
  types : ∀ entry ∈ draft.types, entry.2.isObject = true ∧ Keyed entry.2
  categories : ∃ fields, draft.categories = .record fields ∧
    ∀ entry ∈ fields, IsCategory entry.2 ∧ Keyed entry.2
  profiles : ∃ fields, draft.profiles = .record fields ∧
    ∀ entry ∈ fields, ∃ item, entry.2 = .record item ∧ IsItem .profile (fun _ => True) item
  classes : ∀ entry ∈ draft.classes, IsItem .eventClass ids entry.2
  objects : ∀ entry ∈ draft.objects, IsItem .object ids entry.2

variable {ids : Text → Prop} {draft : Draft}

/-! ### Parts of a formed draft -/

namespace Formed

/-- Whether the schema has a profile is asked without a fault. -/
theorem holds_profiles (formed : Formed ids draft) (key : Text) : ∃ known, holds draft.profiles key = .ok known := by
  obtain ⟨fields, same, _⟩ := formed.profiles
  exact ⟨_, by rw [same]; rfl⟩

theorem datetimeEnabled (formed : Formed ids draft) : Ensures draft.datetimeEnabled fun enabled =>
    enabled = true → Entries.has "datetime_t" draft.types = true := by
  unfold Draft.datetimeEnabled
  obtain ⟨known, told⟩ := formed.holds_profiles "datetime"
  rw [told, ok_bind]
  split
  · exact .pure fun both => (Bool.and_eq_true_iff.mp both).1
  · exact .pure fun impossible => by cases impossible

private theorem type_fields (formed : Formed ids draft) {key : Text} {type : Value}
    (found : Entries.get? key draft.types = some type) :
    ∃ fields, type.asFields = .ok fields ∧ ∀ default, Keyed default → ∀ label : Text,
      Keyed (Entries.getOr label fields default) := by
  obtain ⟨object, keyed⟩ := formed.types _ (Entries.mem_of_get? found)
  cases type with
  | object mark fields => exact ⟨fields, rfl, fun default plain label => (keyed_object.mp keyed).getOr label plain⟩
  | null | bool _ | int _ | float _ | text _ | array _ => cases object

end Formed

/-! ### The dictionary -/

def resolvedKeys : List Text := ["type", "type_name", "object_type", "object_name"]

theorem ensures_refer {marks : Text → Prop} {objects : Entries Fields}
    (items : ∀ entry ∈ objects, IsItem .object ids entry.2) (key : Text)
    {field : Fields} (whole : IsAttribute marks (.record field)) :
    Ensures (refer objects (.text key) field) fun result => IsAttribute marks (.record result) ∧
      Entries.SameBeside resolvedKeys field result := by
  unfold refer
  rw [Value.lookup?, ok_bind]
  have caption : ∃ text : Text,
      Entries.getOr "caption" ((Entries.get? key objects).getD []) (.text ∅) = .text text := by
    cases found : Entries.get? key objects with
    | none => exact ⟨_, rfl⟩
    | some item => exact (items _ (Entries.mem_of_get? found)).label (by decide) _
  obtain ⟨text, caption⟩ := caption
  dsimp only
  rw [caption]
  have typed : IsAttribute marks (.record (Entries.put "type" (.text "object_t") field)) :=
    whole.put (attributeField_of_name (by decide) rfl) (keyed_of_not_object rfl)
  have aimed : IsAttribute marks (.record (Entries.put "object_type" (.text key)
      (Entries.put "type" (.text "object_t") field))) :=
    typed.put (attributeField_of_name (by decide) rfl) (keyed_of_not_object rfl)
  refine .pure ⟨aimed.put ?_ (keyed_of_not_object rfl), ?_⟩
  · exact attributeField_of_other (by decide) (by decide) (by decide) _
  · exact (((Entries.SameBeside.refl _ _).put (by decide) _).put (by decide) _).put (by decide) _

private theorem ensures_resolveType (formed : Formed ids draft)
    (name : Text) {value : Value} (whole : IsAttribute ids value) :
    (resolveType draft name value).Ensures fun result => IsAttribute ids result ∧
      Entries.SameBeside resolvedKeys value.inner result.inner := by
  obtain ⟨field, rfl, keyed, shaped⟩ := whole
  have whole : IsAttribute ids (.record field) := ⟨field, rfl, keyed, shaped⟩
  have kept : IsAttribute ids (.record field) ∧
      Entries.SameBeside resolvedKeys (Value.record field).inner (Value.record field).inner := ⟨whole, .refl _ _⟩
  have typed : (Entries.orNull "type" field).isName = true := whole.orNull_name (by decide)
  have aimed : (Entries.orNull "object_type" field).isName = true := whole.orNull_name (by decide)
  unfold resolveType
  refine (Act.ensures_lift (.ok rfl : Ensures (Value.record field).asFields (field = ·))).bind ?_
  rintro _ rfl
  dsimp only
  split
  · exact (Act.ensures_warn _).bind fun _ _ => Act.ensures_pure kept
  · have looked : Ensures ((Entries.orNull "type" field).lookup? draft.types) fun found =>
        ∀ type ∈ found, ∃ key, Entries.get? key draft.types = some type := by
      rcases name_cases typed with same | ⟨text, same⟩ <;> rw [same]
      · exact .ok fun _ impossible => by cases impossible
      · exact .ok fun type found => ⟨text, found⟩
    refine (Act.ensures_lift looked).bind fun found known => ?_
    cases found with
    | some type =>
        obtain ⟨key, told⟩ := known type rfl
        obtain ⟨fields, opened, labels⟩ := formed.type_fields told
        refine (Act.ensures_lift (⟨fields, opened, rfl⟩ : Ensures type.asFields (fields = ·))).bind ?_
        rintro _ rfl
        refine Act.ensures_pure ⟨whole.put ?_ (labels _ (keyed_of_not_object rfl) _), ?_⟩
        · exact attributeField_of_other (by decide) (by decide) (by decide) _
        · exact (Entries.SameBeside.refl _ _).put (by decide) _
    | none =>
        dsimp only
        have meant : (if (Entries.orNull "type" field).equals (.text "object_t") then
            Entries.orNull "object_type" field else Entries.orNull "type" field).isName = true := by
          split
          · exact aimed
          · exact typed
        refine (Act.ensures_lift (Scope.ensures_find? draft.objects meant _)).bind fun found known => ?_
        cases found with
        | some key =>
            obtain ⟨text, rfl, _⟩ := known key rfl
            refine (Act.ensures_lift (ensures_refer formed.objects text whole)).bind fun result both => ?_
            exact Act.ensures_pure both
        | none => exact (Act.ensures_warn _).bind fun _ _ => Act.ensures_pure kept

theorem Described.beside {value result : Value} (described : Described value)
    (same : Entries.SameBeside resolvedKeys value.inner result.inner) : Described result := by
  intro description found
  rw [same "description" (by decide)] at found
  exact described description found

theorem Described.copied {value : Value} (described : Described value) : Described value.unshared := by
  intro description found
  cases value with
  | object mark fields =>
      rw [unshared, Value.inner, get?_unsharedFields] at found
      obtain ⟨own, known, rfl⟩ := Option.map_eq_some_iff.mp found
      obtain ⟨text, rfl⟩ := described own known
      exact ⟨text, unshared_of_leaf rfl⟩
  | null | bool _ | int _ | float _ | text _ | array _ =>
      rw [unshared_of_leaf rfl] at found
      cases found

private theorem ensures_datetimeSibling? (formed : Formed ids draft)
    (known : Entries.has "datetime_t" draft.types = true)
    {entry : Text × Value} (whole : IsAttribute ids entry.2) (described : Described entry.2) :
    Ensures (datetimeSibling? draft.types entry) fun found => ∀ sibling ∈ found,
      sibling.1 = datetimeName entry.1 ∧ IsAttribute ids sibling.2 ∧ Described sibling.2 := by
  obtain ⟨name, value⟩ := entry
  obtain ⟨field, same, keyed, shaped⟩ := whole.copied
  have whole : IsAttribute ids (.record field) := ⟨field, rfl, keyed, shaped⟩
  have described : Described (.record field) := same ▸ described.copied
  unfold datetimeSibling?
  dsimp only
  rw [same, Value.record, Value.asFields, ok_bind]
  split
  · obtain ⟨type, told⟩ := Option.isSome_iff_exists.mp known
    obtain ⟨fields, opened, labels⟩ := formed.type_fields told
    rw [Entries.orNull, Entries.getOr, told, Option.getD_some, opened, ok_bind]
    refine .pure ?_
    rintro _ ⟨⟩
    have typed : IsAttribute ids (.record (Entries.put "type" (.text "datetime_t") field)) :=
      whole.put (attributeField_of_name (by decide) rfl) (keyed_of_not_object rfl)
    refine ⟨rfl, typed.put ?_ (labels _ (keyed_of_not_object rfl) _), described.beside ?_⟩
    · exact attributeField_of_other (by decide) (by decide) (by decide) _
    · exact ((Entries.SameBeside.refl _ _).put (by decide) _).put (by decide) _
  · exact .pure fun _ impossible => by cases impossible

/-- Attributes of the dictionary resolved: those whose names are not made for siblings differ in the keys
for their types alone. -/
def ResolvedFrom (before after : Fields) : Prop :=
  ∀ name, (∀ origin, name ≠ datetimeName origin) →
    Entries.SameBeside resolvedKeys (Entries.orEmpty name before).inner (Entries.orEmpty name after).inner

private theorem resolvedFrom_related {before after : Fields}
    (related : Entries.Related (fun _ value result => Entries.SameBeside resolvedKeys value.inner result.inner)
      before after) : ResolvedFrom before after := by
  intro name _
  unfold Entries.orEmpty Entries.getOr
  cases found : Entries.get? name before with
  | some value =>
      obtain ⟨result, known, same⟩ := related.get?_left found
      rw [known]
      exact same
  | none =>
      have absent : Entries.get? name after = none := by
        rw [Entries.get?_eq_none_iff, related.keys_eq]
        exact Entries.get?_eq_none_iff.mp found
      rw [absent]
      exact .refl _ _

def withNewSiblings (attributes siblings : Fields) : Fields :=
  siblings.foldl (fun all sibling => Entries.putNew sibling.1 sibling.2 all) attributes

/-- Siblings are added under names made for them. -/
theorem withNewSiblings_resolved {before attributes siblings : Fields} (resolved : ResolvedFrom before attributes)
    (whole : AreAttributes ids attributes) (described : ∀ entry ∈ attributes, Described entry.2)
    (each : ∀ sibling ∈ siblings, (∃ origin, sibling.1 = datetimeName origin) ∧ IsAttribute ids sibling.2 ∧
      Described sibling.2) :
    ResolvedFrom before (withNewSiblings attributes siblings) ∧
      AreAttributes ids (withNewSiblings attributes siblings) ∧
      ∀ entry ∈ withNewSiblings attributes siblings, Described entry.2 := by
  unfold withNewSiblings
  induction siblings generalizing attributes with
  | nil => exact ⟨resolved, whole, described⟩
  | cons sibling rest ih =>
      obtain ⟨⟨⟨origin, named⟩, isAttribute, own⟩, others⟩ := List.forall_mem_cons.mp each
      refine ih ?_ (whole.putNew isAttribute) ?_ others
      · intro name apart
        have kept : Entries.orEmpty name (Entries.putNew sibling.1 sibling.2 attributes) =
            Entries.orEmpty name attributes := by
          unfold Entries.orEmpty Entries.getOr
          rw [Entries.get?_putNew, if_neg fun both => apart origin (both.1.trans named)]
        rw [kept]
        exact resolved name apart
      · intro entry member
        change entry ∈ Entries.putNew sibling.1 sibling.2 attributes at member
        unfold Entries.putNew at member
        split at member
        · exact described entry member
        · rcases Entries.mem_of_mem_put member with added | before
          · rw [added]
            exact own
          · exact described entry before

def ResolvesTo (ids : Text → Prop) (_ : Text) (value result : Value) : Prop :=
  (IsAttribute ids result ∧ Described result) ∧ Entries.SameBeside resolvedKeys value.inner result.inner

/-- The dictionary is resolved, and nothing else changes. -/
theorem ensures_resolveDictionary (formed : Formed ids draft) :
    draft.resolveDictionary.Ensures fun resolved => Formed ids resolved ∧
      ∃ attributes, resolved = { draft with attributes } ∧ ResolvedFrom draft.attributes attributes := by
  have each : ∀ entry ∈ draft.attributes, (resolveType draft entry.1 entry.2).Ensures
      (ResolvesTo ids entry.1 entry.2) := by
    intro entry member
    refine (ensures_resolveType formed entry.1 (formed.attributes.each entry member)).imp fun result both => ?_
    exact ⟨⟨both.1, (formed.described entry member).beside both.2⟩, both.2⟩
  have done {attributes : Fields} (whole : AreAttributes ids attributes)
      (described : ∀ entry ∈ attributes, Described entry.2) (resolved : ResolvedFrom draft.attributes attributes) :
      Formed ids { draft with attributes } ∧ ∃ others, ({ draft with attributes } : Draft) =
        { draft with attributes := others } ∧
        ResolvedFrom draft.attributes others :=
    ⟨{ formed with attributes := whole, described }, attributes, rfl, resolved⟩
  unfold resolveDictionary
  refine (Act.ensures_mapEntries each).bind fun attributes related => ?_
  have whole : AreAttributes ids attributes := formed.attributes.related related fun _ _ _ held _ => held.1.1
  have described : ∀ entry ∈ attributes, Described entry.2 := by
    intro entry member
    obtain ⟨_, _, held⟩ := related.mem_right member
    exact held.1.2
  have resolved := resolvedFrom_related (related.imp fun _ _ _ held => held.2)
  refine (Act.ensures_lift formed.datetimeEnabled).bind fun enabled known => ?_
  cases enabled with
  | true =>
      refine (Act.ensures_note _).bind fun _ _ => ?_
      have siblings : Ensures (attributes.filterMapM (datetimeSibling? draft.types)) fun siblings =>
          ∀ sibling ∈ siblings, (∃ origin, sibling.1 = datetimeName origin) ∧ IsAttribute ids sibling.2 ∧
            Described sibling.2 := by
        refine .filterMapM fun entry member => ?_
        refine (ensures_datetimeSibling? formed (known rfl) (whole.each entry member) (described entry member)).imp ?_
        exact fun found told sibling present => ⟨⟨entry.1, (told sibling present).1⟩, (told sibling present).2⟩
      refine (Act.ensures_lift siblings).bind fun siblings told => Act.ensures_pure ?_
      obtain ⟨resolved, whole, described⟩ := withNewSiblings_resolved resolved whole described told
      exact done whole described resolved
  | false => exact Act.ensures_pure (done whole described resolved)

end Draft

end EventSchema
