import EventSchema.Proofs.Documents
import EventSchema.Proofs.Graph.Carried

/-!
The attributes of a graph one by one.

Where the definitions are documents, no attribute of a flattened item has a field twice, and the passes
before the last ones leave most fields of it as they are. After that each attribute is made optional or
left, and finished over that of the dictionary. So a field of a record can be followed back to what the
item was flattened to.
-/

set_option autoImplicit false

namespace EventSchema

open Value

structure Definitions.Documents (d : Definitions) : Prop extends d.Keyed where
  singleClasses : ∀ key mark item, Entries.get? key d.classes.inner = some (.object mark item) →
    SingleEach (Entries.attributes item)
  singleObjects : ∀ key mark item, Entries.get? key d.objects.inner = some (.object mark item) →
    SingleEach (Entries.attributes item)

theorem Compilation.Steps.documents_definitions {c : Compilation} {graph : Graph} (steps : Steps c graph) :
    steps.definitions.Documents := by
  obtain ⟨classes, objects, inClasses, inObjects, shape, shape'⟩ := steps.documents
  have single {items : Entries Fields} (documents : DocumentEach items) (key : Text) (mark : Option Nat)
      (item : Fields) (found : Entries.get? key (Entries.mapValues Value.record items) = some (.object mark item)) :
      SingleEach (Entries.attributes item) := by
    rw [Entries.get?_mapValues] at found
    obtain ⟨fields, known, same⟩ := Option.map_eq_some_iff.mp found
    cases same
    exact (documents.of_get? known).single
  refine { steps.keyed with singleClasses := ?_, singleObjects := ?_ }
  · rw [shape]
    exact single inClasses
  · rw [shape']
    exact single inObjects

theorem Definitions.documents_of_written {d : Definitions} (categories : Written d.categories)
    (dictionary : Written d.dictionary) (classes : Written d.classes) (objects : Written d.objects)
    (profiles : Written d.profiles) : d.Documents := by
  have single {items : Value} (written : Written items) (key : Text) (mark : Option Nat) (item : Fields)
      (found : Entries.get? key items.inner = some (.object mark item)) : SingleEach (Entries.attributes item) := by
    cases items with
    | object own fields =>
        have inside := (written_object.mp ((written_object.mp written).2.of_get? found)).2
        exact fun entry member => (inside.attributes.of_mem member).single
    | null | bool _ | int _ | float _ | text _ | array _ => cases found
  exact {
    categories := categories.keyed
    dictionary := dictionary.keyed
    classes := classes.keyed
    objects := objects.keyed
    profiles := profiles.keyed
    singleClasses := single classes
    singleObjects := single objects }

theorem Value.Keyed.inner {value : Value} (keyed : value.Keyed) : Keyed (.record value.inner) := by
  cases value with
  | object mark fields => exact keyed_object.mp keyed
  | null | bool _ | int _ | float _ | text _ | array _ => exact keyed_nil

/-- No object of what a draft takes over from the dictionary has a key twice. -/
theorem Definitions.Keyed.shared {d : Definitions} (keyed : d.Keyed) {attributes types : Fields}
    (shared : d.shared = .ok (attributes, types)) :
    Value.Keyed (.record attributes) ∧ Value.Keyed (.record types) := by
  obtain ⟨mark, own, fields, outer, shape, known, readOuter, readTypes⟩ := Definitions.exists_of_shared shared
  have whole := keyed.dictionary
  rw [shape, keyed_object] at whole
  exact ⟨keyed_object.mp (whole.of_get? known),
    (((whole.orEmpty "types").asFields readOuter).orEmpty _).asFields readTypes⟩

/-! ### Attributes in one place -/

namespace Draft

/-- An attribute in one place, without a field that comes twice. -/
def InPlace : Value → Prop := SourcedIf fun _ => False

theorem inPlace_object {mark : Option Nat} {field : Fields} :
    InPlace (.object mark field) ↔ mark = none ∧ Entries.Distinct field := by
  constructor
  · intro held
    obtain ⟨unmarked, distinct, _⟩ := held mark field rfl
    exact ⟨unmarked, distinct⟩
  · rintro ⟨unmarked, distinct⟩ mark' field' ⟨⟩
    exact ⟨unmarked, distinct, False.elim⟩

theorem InPlace.distinct {value : Value} (place : InPlace value) : Entries.Distinct value.inner := by
  cases value with
  | object mark field => exact (inPlace_object.mp place).2
  | null | bool _ | int _ | float _ | text _ | array _ => exact Entries.Distinct.nil

theorem inPlace_of_document {attributes : Fields} (single : SingleEach attributes)
    (keyed : Keyed (.record attributes)) : ∀ entry ∈ attributes, InPlace entry.2 := by
  intro entry member mark field shape
  have own := keyed.of_mem member
  rw [shape] at own
  exact ⟨single entry member mark field shape, (keyed_object.mp own).distinct, False.elim⟩

end Draft

namespace Lineage

open Draft (InPlace inPlace_object)

theorem hereditary_inPlace {items : Fields} (own : ∀ key mark item,
    Entries.get? key items = some (.object mark item) → ∀ entry ∈ Entries.attributes item, InPlace entry.2) :
    Hereditary items (fun attributes => ∀ entry ∈ attributes, InPlace entry.2) where
  empty := List.forall_mem_nil _
  own key mark item found _ := own key mark item found
  root := by
    intro key mark item found entry member
    obtain ⟨⟨name, value⟩, before, same⟩ := List.mem_map.mp member
    have held := own key mark item found _ (List.mem_of_mem_filter before)
    rw [← same]
    cases value with
    | object mark field =>
        obtain ⟨unmarked, distinct⟩ := inPlace_object.mp held
        exact inPlace_object.mpr ⟨unmarked, distinct.putNew _ _⟩
    | null | bool _ | int _ | float _ | text _ | array _ => exact held
  step := by
    intro key mark item found entry member place fields after all ran
    rcases override_cases ran with
      ⟨inner, base, _, _, written, known, _, same, wrote⟩ | ⟨object, _, same⟩ | ⟨plain, same⟩
    · refine ⟨_, same, Draft.SourcedIf.putShared ?_ all fun _ _ impossible => impossible⟩
      obtain ⟨unmarked, distinct⟩ := inPlace_object.mp (all _ (Entries.mem_of_get? known))
      exact inPlace_object.mpr ⟨unmarked, wrote.distinct distinct⟩
    · refine ⟨_, same, fun other present => ?_⟩
      rcases Entries.mem_of_mem_put present with new | old
      · rw [new]
        have held := own key mark item found entry member
        cases shape : entry.2 with
        | object mark' declared =>
            rw [shape] at held
            rw [Value.unshared]
            refine inPlace_object.mpr ⟨rfl, Entries.Distinct.putNew ?_ _ _⟩
            rw [Entries.Distinct, keys_unsharedFields]
            exact (inPlace_object.mp held).2
        | null | bool _ | int _ | float _ | text _ | array _ =>
            rw [shape] at object
            cases object
      · exact all other old
    · refine ⟨_, same, fun other present => ?_⟩
      rcases Entries.mem_of_mem_put present with new | old
      · rw [new]
        exact Draft.SourcedIf.of_not_object plain
      · exact all other old
  kept attributes all entry member := all entry (List.mem_of_mem_filter member)

end Lineage

/-! ### Up to the closing of the profiles -/

namespace Draft

def ownField (field name : Text) (attributes : Fields) : Option Value :=
  Entries.get? field (Entries.orEmpty name attributes).inner

/-- The fields of attributes that passes write before the profiles are closed. -/
def enrichedFields : List Text := ["enum", "description", "_source"]

private theorem ownField_put_self (field name : Text) (value : Value) (attributes : Fields) :
    ownField field name (Entries.put name value attributes) = Entries.get? field value.inner := by
  rw [ownField, Entries.orEmpty_put_self]

private theorem ownField_put_of_ne {name other : Text} (different : name ≠ other) (field : Text) (value : Value)
    (attributes : Fields) :
    ownField field other (Entries.put name value attributes) = ownField field other attributes := by
  rw [ownField, Entries.orEmpty_put_of_ne different, ownField]

theorem ownField_of_get? {field name : Text} {value : Value} {attributes : Fields}
    (found : Entries.get? name attributes = some value) :
    ownField field name attributes = Entries.get? field value.inner := by
  rw [ownField, Entries.orEmpty, Entries.getOr, found, Option.getD_some]

theorem ownField_of_absent {field name : Text} {attributes : Fields}
    (absent : Entries.get? name attributes = none) : ownField field name attributes = none := by
  rw [ownField, Entries.orEmpty, Entries.getOr, absent]
  rfl

theorem ownField_setIn {field name : Text} {value : Value} {attributes after : Fields}
    (ran : setIn name field value attributes = .ok after) : ownField field name after = some value := by
  unfold setIn at ran
  obtain ⟨changed, wrote, ran⟩ := bind_eq_ok.mp ran
  rw [← pure_eq_ok.mp ran, ownField_put_self]
  cases target : Entries.orEmpty name attributes with
  | object mark fields =>
      rw [target] at wrote
      rw [← Except.ok.inj wrote]
      exact Entries.get?_put_self ..
  | null | bool _ | int _ | float _ | text _ | array _ =>
      rw [target] at wrote
      cases wrote

theorem ownField_setSource {field : Text} (apart : field ≠ "_source") (written name source : Text)
    (attributes : Fields) :
    ownField field name (setSource written source attributes) = ownField field name attributes := by
  unfold setSource
  split
  · rename_i mark fields found
    by_cases here : written = name
    · subst here
      rw [ownField_put_self, ownField_of_get? found]
      exact (Entries.get?_putNew ..).trans (if_neg fun both => apart both.1)
    · exact ownField_put_of_ne here field _ attributes
  · rfl

/-- Identifying a class writes no other field of an attribute. -/
theorem Retouched.ownField {source : Text} {before after : Fields} (retouched : Retouched source before after)
    {field : Text} (unwritten : field ∉ enrichedFields) (name : Text) :
    ownField field name after = ownField field name before := by
  simp only [enrichedFields, List.mem_cons, List.not_mem_nil, or_false, not_or] at unwritten
  obtain ⟨noEnum, noDescription, noSource⟩ := unwritten
  induction retouched with
  | same => rfl
  | @field after key changed value written earlier which wrote ih =>
      rw [← ih]
      by_cases here : written = name
      · subst here
        rw [ownField_put_self, Draft.ownField]
        cases target : Entries.orEmpty written after with
        | object mark fields =>
            rw [target] at wrote
            rw [← Except.ok.inj wrote]
            refine Entries.get?_put_of_ne ?_ _ _
            rcases which with rfl | rfl
            · exact Ne.symm noEnum
            · exact Ne.symm noDescription
        | null | bool _ | int _ | float _ | text _ | array _ =>
            rw [target] at wrote
            cases wrote
      · exact ownField_put_of_ne here field changed after
  | @source after written earlier ih => rw [← ih, ownField_setSource noSource]

theorem Retouched.inPlace {source : Text} {before after : Fields} (retouched : Retouched source before after)
    (all : ∀ entry ∈ before, InPlace entry.2) : ∀ entry ∈ after, InPlace entry.2 := by
  induction retouched with
  | same => exact all
  | @field after key changed value name earlier which wrote ih =>
      intro entry member
      rcases Entries.mem_of_mem_put member with new | old
      · rw [new]
        have held : InPlace (Entries.orEmpty name after) := by
          rw [Entries.orEmpty, Entries.getOr]
          cases found : Entries.get? name after with
          | none => exact inPlace_object.mpr ⟨rfl, Entries.Distinct.nil⟩
          | some value => exact ih _ (Entries.mem_of_get? found)
        cases target : Entries.orEmpty name after with
        | object mark fields =>
            rw [target] at wrote held
            obtain ⟨unmarked, distinct⟩ := inPlace_object.mp held
            rw [← Except.ok.inj wrote]
            exact inPlace_object.mpr ⟨unmarked, distinct.put _ _⟩
        | null | bool _ | int _ | float _ | text _ | array _ =>
            rw [target] at wrote
            cases wrote
      · exact ih entry old
  | @source after name earlier ih =>
      unfold setSource
      split
      · rename_i mark fields found
        intro entry member
        rcases Entries.mem_of_mem_put member with new | old
        · rw [new]
          obtain ⟨unmarked, distinct⟩ := inPlace_object.mp (ih _ (Entries.mem_of_get? found))
          exact inPlace_object.mpr ⟨unmarked, distinct.putNew _ _⟩
        · exact ih entry old
      · exact ih

/-- A field of an attribute in one place, once every object among the given ones is renewed. -/
theorem ownField_refreshFields {known : Occurrences} (objects : ∀ entry ∈ known, entry.2.isObject = true)
    {attributes : Fields} (all : ∀ entry ∈ attributes, InPlace entry.2) (field name : Text) :
    ownField field name (Value.refreshFields known attributes) =
      (ownField field name attributes).map (Value.refresh known) := by
  have renews := Value.renews_refresh objects
  cases found : Entries.get? name attributes with
  | none =>
      have absent : Entries.get? name (Value.refreshFields known attributes) = none := by
        rw [renews.found, found, Option.map_none]
      rw [ownField_of_absent found, ownField_of_absent absent, Option.map_none]
  | some value =>
      have held : Entries.get? name (Value.refreshFields known attributes) = some (Value.refresh known value) := by
        rw [renews.found, found, Option.map_some]
      rw [ownField_of_get? found, ownField_of_get? held]
      have place := all _ (Entries.mem_of_get? found)
      cases value with
      | object mark fields =>
          obtain ⟨rfl, _⟩ := inPlace_object.mp place
          have opened : Value.refresh known (.object none fields) = .object none (Value.refreshFields known fields) :=
            renews.record fields
          rw [opened, Value.inner, Value.inner, renews.found]
      | null | bool _ | int _ | float _ | text _ | array _ =>
          rw [renews.leaf _ rfl]
          rfl

/-- An item as it was flattened, but for the fields that the passes up to the closing of the profiles
write. An object that occurs in several places may have been renewed. -/
structure Preserved (flat item : Fields) : Prop where
  inPlace : ∀ entry ∈ Entries.attributes item, InPlace entry.2
  distinct : Entries.Distinct (Entries.attributes item)
  extension : Entries.get? "extension" item = Entries.get? "extension" flat
  renewed : ∃ known : Occurrences, (∀ entry ∈ known, entry.2.isObject = true) ∧
    ∀ field name, field ∉ enrichedFields → ownField field name (Entries.attributes item) =
      (ownField field name (Entries.attributes flat)).map (Value.refresh known)

end Draft

namespace Stages

open Draft (InPlace inPlace_object ownField enrichedFields)

variable {d : Definitions} {graph : Graph}

theorem keyedDocument_of_keyed {items : Fields} (keyed : Keyed (.record items)) : KeyedDocument items where
  keys := keyed.distinct
  names _ _ _ member := (keyed_object.mp (keyed.of_mem member)).attributes.distinct

private theorem inPlace_flat {kind : ItemKind} {items flat : Fields} {name : Text} (keyed : Keyed (.record items))
    (single : ∀ key mark item, Entries.get? key items = some (.object mark item) →
      SingleEach (Entries.attributes item)) (computed : Lineage.Flat kind items name flat) :
    ∀ entry ∈ Entries.attributes flat, InPlace entry.2 :=
  (Lineage.hereditary_inPlace fun key mark item found => Draft.inPlace_of_document (single key mark item found)
    (keyed_object.mp (keyed.of_get? found)).attributes).flat computed

variable (stages : Stages d graph)

theorem inner_rawClasses : d.classes.inner = stages.rawClasses := by
  obtain ⟨mark, same⟩ := Value.inner_of_asFields stages.readClasses
  rw [same, Value.inner]

theorem inner_rawObjects : d.objects.inner = stages.rawObjects := by
  obtain ⟨mark, same⟩ := Value.inner_of_asFields stages.readObjects
  rw [same, Value.inner]

theorem preserved_class (documents : d.Documents) {key : Text} {item : Fields}
    (found : Entries.get? key stages.closed.classes = some item) :
    ∃ flat, Lineage.Flat .eventClass d.classes.inner key flat ∧ Draft.Preserved flat item := by
  have keyed := documents.classes.asFields stages.readClasses
  obtain ⟨flat, _, computed, _, distinct, extension, _⟩ :=
    stages.written_class (keyedDocument_of_keyed keyed) found
  obtain ⟨other, computed', retouched⟩ := stages.closed_class found
  obtain rfl : flat = other := computed.unique computed'
  rw [stages.inner_rawClasses]
  refine ⟨flat, computed, ?_, distinct, extension, [], List.forall_mem_nil _, fun field name unwritten => ?_⟩
  · refine retouched.inPlace (inPlace_flat keyed ?_ computed)
    exact stages.inner_rawClasses ▸ documents.singleClasses
  · rw [retouched.ownField unwritten]
    cases ownField field name (Entries.attributes flat) with
    | none => rfl
    | some value => rw [Option.map_some, Value.refresh_nil]

theorem preserved_object (documents : d.Documents) {key : Text} {item : Fields}
    (found : Entries.get? key stages.closed.objects = some item) :
    ∃ flat, Lineage.Flat .object d.objects.inner key flat ∧ Draft.Preserved flat item := by
  have keyed := documents.objects.asFields stages.readObjects
  obtain ⟨other, shown, kept⟩ := stages.related_closed.get?_right found
  obtain ⟨_, _, computed'⟩ := (Lineage.flattenAll_ok stages.flattenObjects).mem_right
    (List.mem_of_mem_filter (Entries.mem_of_get? shown))
  obtain ⟨flat, computed, outcome⟩ := stages.closed_object found
  obtain rfl : flat = other := computed.unique computed'
  have distinct : Entries.Distinct (Entries.attributes flat) :=
    (Lineage.hereditary_distinct fun key mark item held =>
      (keyed_object.mp (keyed.of_get? held)).attributes.distinct).flat computed
  have inPlace : ∀ entry ∈ Entries.attributes flat, InPlace entry.2 :=
    inPlace_flat keyed (stages.inner_rawObjects ▸ documents.singleObjects) computed
  rw [stages.inner_rawObjects]
  refine ⟨flat, computed, ?_⟩
  rcases outcome with ⟨_, same⟩ | ⟨_, ids, enumeration, opened, _, same⟩
  · refine ⟨same ▸ inPlace, same ▸ distinct, kept "extension" (by decide), [], List.forall_mem_nil _, ?_⟩
    intro field name _
    rw [same]
    cases ownField field name (Entries.attributes flat) with
    | none => rfl
    | some value => rw [Option.map_some, Value.refresh_nil]
  · -- the enumeration is written to `type_id`, and every object in several places is renewed
    have objects := Value.isObject_of_mem_occurrences (.record (Entries.put "enum" enumeration ids))
    have listed : InPlace (.record ids) := by
      have held : InPlace (Entries.orEmpty "type_id" (Entries.attributes flat)) := by
        rw [Entries.orEmpty, Entries.getOr]
        cases known : Entries.get? "type_id" (Entries.attributes flat) with
        | none => exact inPlace_object.mpr ⟨rfl, Entries.Distinct.nil⟩
        | some value => exact inPlace _ (Entries.mem_of_get? known)
      obtain ⟨mark, shape⟩ := Value.inner_of_asFields opened
      rw [shape] at held
      exact inPlace_object.mpr ⟨rfl, (inPlace_object.mp held).2⟩
    have written : InPlace (.record (Entries.put "enum" enumeration ids)) :=
      inPlace_object.mpr ⟨rfl, (inPlace_object.mp listed).2.put _ _⟩
    have all : ∀ entry ∈ Entries.put "type_id" (.record (Entries.put "enum" enumeration ids))
        (Entries.attributes flat), InPlace entry.2 := by
      intro entry member
      rcases Entries.mem_of_mem_put member with new | old
      · exact new ▸ written
      · exact inPlace entry old
    refine ⟨?_, ?_, kept "extension" (by decide), _, objects, fun field name unwritten => ?_⟩
    · rw [same]
      exact Draft.SourcedIf.putShared written inPlace fun _ _ impossible => impossible
    · rw [same, Entries.Distinct, Value.putShared, Value.keys_refreshFields]
      exact distinct.put _ _
    · have apart : ("enum" : Text) ≠ field := by
        rintro rfl
        exact unwritten (List.mem_cons_self ..)
      rw [same, Value.putShared, Draft.ownField_refreshFields objects all]
      congr 1
      by_cases here : "type_id" = name
      · subst here
        obtain ⟨mark, shape⟩ := Value.inner_of_asFields opened
        rw [Draft.ownField_put_self, ownField, shape, Value.inner_record, Value.inner,
          Entries.get?_put_of_ne apart]
      · rw [Draft.ownField_put_of_ne here]

end Stages

/-! ### After the closing of the profiles -/

namespace Draft

/-- Making an attribute optional gives it no field twice. -/
theorem distinct_orOptional {value : Value} (distinct : Entries.Distinct value.inner) :
    Entries.Distinct (orOptional value).inner := by
  cases value with
  | object mark field =>
      rw [orOptional]
      split
      · exact distinct.put _ _
      · exact distinct
  | null | bool _ | int _ | float _ | text _ | array _ => exact distinct

/-- An attribute that is made optional or left is otherwise as it was. -/
theorem orOptional_object (mark : Option Nat) (field : Fields) :
    ∃ own filled, orOptional (.object mark field) = .object own filled ∧
      Entries.SameBeside ["requirement"] field filled := by
  rw [orOptional]
  split
  · exact ⟨none, _, rfl, (Entries.SameBeside.refl _ _).put (by decide) _⟩
  · exact ⟨mark, field, rfl, .refl _ _⟩

def siblingFields (field : Fields) : Fields :=
  Entries.put "requirement" (.text "optional")
    (Entries.put "profile" (.text "datetime") (Entries.erase "type" (Value.unsharedFields field)))

theorem siblingOf?_ok {draft : Draft} {attributes : Fields} {origin name : Text} {value sibling : Value}
    (made : draft.siblingOf? attributes (origin, value) = .ok (some (name, sibling))) :
    ∃ mark field, value = .object mark field ∧ sibling = .record (siblingFields field) := by
  unfold siblingOf? at made
  obtain ⟨copied, opened, made⟩ := bind_eq_ok.mp made
  obtain ⟨_, _, made⟩ := bind_eq_ok.mp made
  cases value with
  | object mark field =>
      rw [Value.unshared] at opened
      cases opened
      refine ⟨mark, field, rfl, ?_⟩
      dsimp only at made
      split at made
      · have same := Option.some.inj (pure_eq_ok.mp made)
        exact (congrArg Prod.snd same).symm
      · cases pure_eq_ok.mp made
  | null | bool _ | int _ | float _ | text _ | array _ =>
      rw [Value.unshared] at opened
      · cases opened
      · simp

theorem distinct_siblingFields {field : Fields} (distinct : Entries.Distinct field) :
    Entries.Distinct (siblingFields field) := by
  have copied : Entries.Distinct (Value.unsharedFields field) := by
    rw [Entries.Distinct, Value.keys_unsharedFields]
    exact distinct
  exact ((copied.erase _).put _ _).put _ _

/-- What an item goes through once the profiles are closed, told of its attributes. -/
theorem Passes.steps {dating finishing : Draft} {enabled : Bool} {kind : ItemKind} {key : Text}
    {item dated required result : Fields}
    (passes : Passes dating finishing enabled kind key item dated required result) :
    ∃ siblings, (enabled = false ∧ siblings = [] ∨ enabled = true ∧ (Entries.attributes item).filterMapM
        (dating.siblingOf? (Entries.attributes item)) = .ok siblings) ∧
      Entries.Related (fun name value finished =>
          finishing.finishAttribute required name (orOptional value) = .ok finished)
        (withSiblings (Entries.attributes item) siblings) (Entries.attributes result) ∧
      Entries.SameBeside ["attributes", "profiles"] item result ∧
      Entries.profiles result = (if siblings = [] then Entries.profiles item
        else Value.addNew [] (Entries.profiles item ++ [.text "datetime"])) := by
  obtain ⟨missing, requires⟩ := passes.requires
  obtain ⟨filled, requiredFrame⟩ := attributes_requireItem requires
  obtain ⟨finished, finishedFrame⟩ := finishItem_ok passes.finishes
  rw [filled] at finished
  have treated := List.forall₂_map_left_iff.mp finished
  have profiles : Entries.profiles result = Entries.profiles dated :=
    (profiles_of_frame finishedFrame).trans (profiles_of_frame requiredFrame)
  have later : Entries.SameBeside ["attributes", "profiles"] dated result := fun field kept =>
    (finishedFrame field fun here => kept (here ▸ List.mem_cons_self ..)).trans
      (requiredFrame field fun here => kept (here ▸ List.mem_cons_self ..))
  rw [profiles]
  rcases passes.dates with ⟨disabled, rfl⟩ | ⟨enables, dates⟩
  · exact ⟨[], Or.inl ⟨disabled, rfl⟩, treated, later, (if_pos rfl).symm⟩
  · obtain ⟨siblings, collected, shape, listed, frame⟩ := addSiblings_ok dates
    rw [shape] at treated
    refine ⟨siblings, Or.inr ⟨enables, collected⟩, treated, fun field kept => ?_, listed⟩
    rw [later field kept]
    simp only [List.mem_cons, List.not_mem_nil, or_false, not_or] at kept
    exact frame field kept.1 kept.2

end Draft

theorem identity_of_ofFields {key : Text} {kind : ItemKind} {item : Fields} {entity : Entity}
    (ran : Entity.ofFields key kind item = .ok entity) :
    entity.extension = Entries.orNull "extension" item ∧ entity.uid = Entries.orNull "uid" item ∧
      entity.category = Entries.orNull "category" item ∧ entity.categoryUid = Entries.orNull "category_uid" item ∧
      entity.categoryName = Entries.orNull "category_name" item := by
  unfold Entity.ofFields at ran
  obtain ⟨_, _, ran⟩ := bind_eq_ok.mp ran
  obtain ⟨_, _, ran⟩ := bind_eq_ok.mp ran
  obtain ⟨_, _, ran⟩ := bind_eq_ok.mp ran
  rw [← pure_eq_ok.mp ran]
  exact ⟨rfl, rfl, rfl, rfl, rfl⟩

namespace Stages

open Draft (ownField)

variable {d : Definitions} {graph : Graph} (stages : Stages d graph)

/-- A finished attribute has every field as it is over the dictionary, but for those that say what it
refers to. -/
theorem finished_fields {whole : Fields} {name : Text} {mark : Option Nat} {field : Fields} {result : Value}
    (ran : stages.required.finishAttribute whole name (.object mark field) = .ok result) :
    ∃ own fields, result = .object own fields ∧
      ∀ key ∉ (["type", "object_type", "object_name"] : List Text), Entries.get? key fields =
        Entries.get? key (Draft.overFields (Entries.get? name stages.required.attributes) field) := by
  obtain ⟨_, filled, own, fields, shape, rfl, outcome⟩ := Draft.finishAttribute_ok
    (fun shared known => stages.isObject_dictionary known) ran
  cases shape
  refine ⟨own, fields, rfl, fun key apart => ?_⟩
  simp only [List.mem_cons, List.not_mem_nil, or_false, not_or] at apart
  rcases outcome with ⟨_, rfl⟩ | ⟨key', found, refers⟩
  · rfl
  · obtain ⟨object, rfl, _⟩ := Draft.exists_meant found
    rw [Draft.refer_text refers, Entries.get?_put_of_ne (Ne.symm apart.2.2),
      Entries.get?_put_of_ne (Ne.symm apart.2.1), Entries.get?_put_of_ne (Ne.symm apart.1)]

theorem over_given {name key : Text} {field : Fields} {own : Value} (distinct : Entries.Distinct field)
    (given : Entries.get? key field = some own) :
    Entries.get? key (Draft.overFields (Entries.get? name stages.required.attributes) field) =
      some (Value.merge ((ownField key name stages.required.attributes).getD .null).unshared own) := by
  unfold Draft.overFields
  cases found : Entries.get? name stages.required.attributes with
  | none =>
      rw [Draft.ownField_of_absent found, given]
      exact congrArg some (Value.merge_apart (Or.inl rfl)).symm
  | some shared =>
      rw [Draft.ownField_of_get? found]
      dsimp only
      rw [Value.get?_mergeFields _ _ distinct, given, Value.get?_unsharedFields]
      cases Entries.get? key shared.inner with
      | none => exact congrArg some (Value.merge_apart (Or.inl rfl)).symm
      | some known => rfl

theorem over_absent {name key : Text} {field : Fields} (distinct : Entries.Distinct field)
    (absent : Entries.get? key field = none) :
    Entries.get? key (Draft.overFields (Entries.get? name stages.required.attributes) field) =
      (ownField key name stages.required.attributes).map Value.unshared := by
  unfold Draft.overFields
  cases found : Entries.get? name stages.required.attributes with
  | none =>
      rw [Draft.ownField_of_absent found, absent]
      rfl
  | some shared =>
      rw [Draft.ownField_of_get? found]
      dsimp only
      rw [Value.get?_mergeFields _ _ distinct, absent, Value.get?_unsharedFields]

theorem get?_dictionary (name : Text) : Entries.get? name graph.dictionary.attributes =
    (Entries.get? name stages.required.attributes).map fun shared => Attribute.ofFields name shared.inner := by
  rw [stages.dictionary_attributes]
  cases found : Entries.get? name stages.required.attributes with
  | none => exact Attribute.get?_ofValues_of_absent found
  | some shared =>
      have object := stages.isObject_dictionary found
      cases shared with
      | object mark known => exact Attribute.get?_ofValues found
      | null | bool _ | int _ | float _ | text _ | array _ => cases object

theorem passes_class {key : Text} {entity : Entity} (found : Entries.get? key graph.classes = some entity) :
    ∃ enabled item dated required result, stages.closed.datetimeEnabled = .ok enabled ∧
      Entries.get? key stages.closed.classes = some item ∧
      Draft.Passes stages.closed stages.required enabled .eventClass key item dated required result ∧
      Entity.ofFields key .eventClass result = .ok entity := by
  obtain ⟨_, readClasses, _⟩ := Draft.graph_ok stages.reading
  obtain ⟨enabled, asked, eachClass, _⟩ := stages.passes
  obtain ⟨result, known, reads⟩ := readClasses.get?_right found
  obtain ⟨item, held, dated, required, passes⟩ := eachClass.get?_right known
  exact ⟨enabled, item, dated, required, result, asked, held, passes, reads⟩

theorem passes_object {key : Text} {entity : Entity} (found : Entries.get? key graph.objects = some entity) :
    ∃ enabled item dated required result, stages.closed.datetimeEnabled = .ok enabled ∧
      Entries.get? key stages.closed.objects = some item ∧
      Draft.Passes stages.closed stages.required enabled .object key item dated required result ∧
      Entity.ofFields key .object result = .ok entity := by
  obtain ⟨_, _, readObjects⟩ := Draft.graph_ok stages.reading
  obtain ⟨enabled, asked, _, eachObject⟩ := stages.passes
  obtain ⟨result, known, reads⟩ := readObjects.get?_right found
  obtain ⟨item, held, dated, required, passes⟩ := eachObject.get?_right known
  exact ⟨enabled, item, dated, required, result, asked, held, passes, reads⟩

end Stages

end EventSchema
