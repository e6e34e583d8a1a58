import EventSchema.Draft.Basic
import EventSchema.Proofs.Ensures
import EventSchema.Proofs.Profiles
import EventSchema.Proofs.Value.Keyed
import EventSchema.Proofs.Value.Marks

/-!
The shapes of items and their attributes.

A field of an attribute is of the kind that its key asks for: a name, an enumeration, an identifier.
Merging two attributes keeps that so, and so does writing a field of its kind; the same goes for an item
and its own fields. What identifiers are marked with is left open: every identifier of an observable has
a property that the shapes are given with.

The attributes of an item may share objects. What is written into one of them is then written into the
others, so an enumeration may be shared with enumerations alone: it stays one wherever it shows.
-/

set_option autoImplicit false

namespace EventSchema

open Value

namespace Value

def isName : Value → Bool
  | .null | .text _ => true
  | _ => false

def isSection : Value → Bool
  | .object _ fields => fields.all fun entry => entry.2.isObject
  | _ => false

theorem name_cases {value : Value} (name : value.isName = true) :
    value = .null ∨ ∃ text : Text, value = .text text := by
  cases value with
  | null => exact Or.inl rfl
  | text text => exact Or.inr ⟨text, rfl⟩
  | bool _ | int _ | float _ | array _ | object _ _ => cases name

theorem isSection_iff {mark : Option Nat} {fields : Fields} :
    (Value.object mark fields).isSection = true ↔ ∀ entry ∈ fields, entry.2.isObject = true := by
  rw [isSection, List.all_eq_true]

theorem isSection_put {mark : Option Nat} {fields : Fields} {value : Value}
    (whole : (Value.object mark fields).isSection = true) (key : Text) (object : value.isObject = true) :
    (Value.object mark (Entries.put key value fields)).isSection = true := by
  refine isSection_iff.mpr fun entry member => ?_
  rcases Entries.mem_of_mem_put member with added | before
  · rw [added]
    exact object
  · exact isSection_iff.mp whole entry before

private theorem isSection_merge {dest source : Value} (old : dest.isSection = true) (new : source.isSection = true) :
    (dest.merge source).isSection = true := by
  cases dest with
  | object own fields => cases source with
    | object mark source =>
        rw [merge_object]
        induction source generalizing fields with
        | nil =>
            rw [mergeFields]
            exact old
        | cons head rest ih =>
            obtain ⟨key, value⟩ := head
            obtain ⟨first, others⟩ := List.forall_mem_cons.mp (isSection_iff.mp new)
            rw [mergeFields]
            refine ih _ (isSection_put old key ?_) (isSection_iff.mpr others)
            cases Entries.get? key fields with
            | none => exact first
            | some held => exact isObject_merge held first
    | null | bool _ | int _ | float _ | text _ | array _ => cases new
  | null | bool _ | int _ | float _ | text _ | array _ => cases old

end Value

namespace Scope

def Finds (has : Value → Except Fault Bool) (found : Option Value) : Prop :=
  ∀ key ∈ found, ∃ text : Text, key = .text text ∧ has (.text text) = .ok true

private theorem finds_none (has : Value → Except Fault Bool) : Finds has none := fun _ impossible => by cases impossible

private theorem finds_text {has : Value → Except Fault Bool} {text : Text} (known : has (.text text) = .ok true) :
    Finds has (some (.text text)) := by
  rintro _ ⟨⟩
  exact ⟨text, rfl, known⟩

theorem ensures_findBy {has : Value → Except Fault Bool} (asked : ∀ text : Text, ∃ known, has (.text text) = .ok known)
    {name : Value} (named : name.isName = true) (scope : Option Value) :
    Ensures (findBy has name scope) (Finds has) := by
  have ask (key : Text) {other : Except Fault (Option Value)} (missing : Ensures other (Finds has)) :
      Ensures (do if ← has (.text key) then return some (.text key) else other) (Finds has) := by
    obtain ⟨known, told⟩ := asked key
    rw [told, ok_bind]
    cases known with
    | true => exact .pure (finds_text told)
    | false => exact missing
  unfold findBy
  rcases name_cases named with rfl | ⟨text, rfl⟩
  · exact .pure (finds_none has)
  · have plain : Ensures (do if ← has (.text text) then return some (.text text) else return none) (Finds has) :=
      ask text (.pure (finds_none has))
    split
    · exact .pure (finds_none has)
    · cases scope with
      | none => exact plain
      | some scope =>
          dsimp only
          split
          · rw [Value.member, ok_bind]
            split
            · exact ask _ plain
            · exact plain
          · exact plain

theorem ensures_find? {α : Type} (entries : Entries α) {name : Value} (named : name.isName = true)
    (scope : Option Value) : Ensures (find? entries name scope) fun found =>
      ∀ key ∈ found, ∃ text : Text, key = .text text ∧ Entries.has text entries = true := by
  refine (ensures_findBy (fun text => ⟨_, rfl⟩) named scope).imp fun found each key member => ?_
  obtain ⟨text, same, known⟩ := each key member
  exact ⟨text, same, Except.ok.inj known⟩

end Scope

/-! ### Fields of a shape -/

def Shaped (shape : Text → Value → Prop) (fields : Fields) : Prop :=
  ∀ key value, Entries.get? key fields = some value → shape key value

namespace Shaped

variable {shape : Text → Value → Prop} {fields : Fields} {key : Text} {value : Value}

theorem of_entries (each : ∀ entry ∈ fields, shape entry.1 entry.2) : Shaped shape fields :=
  fun _ _ found => each _ (Entries.mem_of_get? found)

theorem put (shaped : Shaped shape fields) (given : shape key value) : Shaped shape (Entries.put key value fields) := by
  intro other held found
  rw [Entries.get?_put] at found
  split at found
  · rename_i here
    cases found
    exact here ▸ given
  · exact shaped other held found

theorem putNew (shaped : Shaped shape fields) (given : shape key value) :
    Shaped shape (Entries.putNew key value fields) := by
  unfold Entries.putNew
  split
  · exact shaped
  · exact shaped.put given

theorem erase (shaped : Shaped shape fields) (key : Text) : Shaped shape (Entries.erase key fields) := by
  intro other value found
  rw [Entries.get?_erase] at found
  split at found
  · cases found
  · exact shaped other value found

theorem imp {weaker : Text → Value → Prop} (shaped : Shaped shape fields)
    (implied : ∀ key value, shape key value → weaker key value) : Shaped weaker fields :=
  fun key value found => implied key value (shaped key value found)

theorem merge {source : Fields} (shaped : Shaped shape fields) (given : Shaped shape source)
    (distinct : Entries.Distinct source)
    (merged : ∀ key old value, shape key old → shape key value → shape key (old.merge value)) :
    Shaped shape (mergeFields fields source) := by
  intro key value found
  rw [get?_mergeFields key fields distinct] at found
  cases new : Entries.get? key source with
  | none =>
      rw [new] at found
      exact shaped key value found
  | some written => cases old : Entries.get? key fields with
    | none =>
        rw [new, old] at found
        cases found
        exact given key value new
    | some held =>
        rw [new, old] at found
        cases found
        exact merged key held written (shaped key held old) (given key written new)

end Shaped

/-! ### Attributes -/

/-- The keys of an attribute whose values name something. -/
def namingKeys : List Text := ["type", "object_type", "profile", "_source"]

structure AttributeField (ids : Text → Prop) (key : Text) (value : Value) : Prop where
  name : key ∈ namingKeys → value.isName = true
  enum : key = "enum" → value.isSection = true
  observable : key = "observable" → value.isObject = false ∧ ids value.shown

def IsAttribute (ids : Text → Prop) (value : Value) : Prop :=
  ∃ fields, value = .record fields ∧ Keyed (.record fields) ∧ Shaped (AttributeField ids) fields

structure AreAttributes (ids : Text → Prop) (attributes : Fields) : Prop where
  distinct : Entries.Distinct attributes
  each : ∀ entry ∈ attributes, IsAttribute ids entry.2

variable {ids : Text → Prop}

theorem attributeField_of_other {key : Text} (naming : key ∉ namingKeys) (enum : key ≠ "enum")
    (observable : key ≠ "observable") (value : Value) : AttributeField ids key value where
  name asked := absurd asked naming
  enum asked := absurd asked enum
  observable asked := absurd asked observable

theorem attributeField_of_name {key : Text} {value : Value} (naming : key ∈ namingKeys)
    (name : value.isName = true) : AttributeField ids key value where
  name _ := name
  enum same := absurd (same ▸ naming) (by decide)
  observable same := absurd (same ▸ naming) (by decide)

theorem attributeField_of_enum {value : Value} (enumeration : value.isSection = true) :
    AttributeField ids "enum" value where
  name asked := absurd asked (by decide)
  enum _ := enumeration
  observable same := absurd same (by decide)

theorem attributeField_of_observable {value : Value} (leaf : value.isObject = false)
    (held : ids value.shown) : AttributeField ids "observable" value where
  name asked := absurd asked (by decide)
  enum same := absurd same (by decide)
  observable _ := ⟨leaf, held⟩

private theorem isSection_unshared {value : Value} (whole : value.isSection = true) :
    value.unshared.isSection = true := by
  cases value with
  | object mark fields =>
      rw [unshared, isSection_iff, unsharedFields_eq_mapValues]
      intro entry member
      obtain ⟨origin, known, rfl⟩ := List.mem_map.mp member
      rw [isObject_unshared]
      exact isSection_iff.mp whole origin known
  | null | bool _ | int _ | float _ | text _ | array _ => cases whole

theorem AttributeField.copied {key : Text} {value : Value} (field : AttributeField ids key value) :
    AttributeField ids key value.unshared where
  name asked := by
    rcases name_cases (field.name asked) with rfl | ⟨_, rfl⟩
    · rfl
    · rfl
  enum asked := isSection_unshared (field.enum asked)
  observable asked := by
    rw [unshared_of_leaf (field.observable asked).1]
    exact field.observable asked

theorem AttributeField.merge {key : Text} {old value : Value} (before : AttributeField ids key old)
    (given : AttributeField ids key value) : AttributeField ids key (old.merge value) where
  name asked := by
    have leaf : value.isObject = false := by
      rcases name_cases (given.name asked) with same | ⟨_, same⟩ <;> rw [same] <;> rfl
    rw [merge_apart (Or.inr leaf)]
    exact given.name asked
  enum asked := isSection_merge (before.enum asked) (given.enum asked)
  observable asked := by
    rw [merge_apart (Or.inr (given.observable asked).1)]
    exact given.observable asked

namespace IsAttribute

variable {value : Value}

theorem keyed (whole : IsAttribute ids value) : Keyed value := by
  obtain ⟨fields, rfl, keyed, _⟩ := whole
  exact keyed

theorem isObject (whole : IsAttribute ids value) : value.isObject = true := by
  obtain ⟨fields, rfl, _, _⟩ := whole
  rfl

theorem fields {fields : Fields} (whole : IsAttribute ids (.record fields)) :
    Keyed (.record fields) ∧ Shaped (AttributeField ids) fields := by
  obtain ⟨_, same, keyed, shaped⟩ := whole
  cases same
  exact ⟨keyed, shaped⟩

theorem put {fields : Fields} (whole : IsAttribute ids (.record fields)) {key : Text} {given : Value}
    (field : AttributeField ids key given) (keyed : Keyed given) :
    IsAttribute ids (.record (Entries.put key given fields)) :=
  ⟨_, rfl, whole.fields.1.put keyed key, whole.fields.2.put field⟩

theorem putNew {fields : Fields} (whole : IsAttribute ids (.record fields)) {key : Text} {given : Value}
    (field : AttributeField ids key given) (keyed : Keyed given) :
    IsAttribute ids (.record (Entries.putNew key given fields)) :=
  ⟨_, rfl, whole.fields.1.putNew keyed key, whole.fields.2.putNew field⟩

theorem erase {fields : Fields} (whole : IsAttribute ids (.record fields)) (key : Text) :
    IsAttribute ids (.record (Entries.erase key fields)) :=
  ⟨_, rfl, whole.fields.1.erase key, whole.fields.2.erase key⟩

theorem empty : IsAttribute ids (.record []) :=
  ⟨[], rfl, keyed_nil, fun _ _ impossible => by cases impossible⟩

theorem merge {other : Value} (whole : IsAttribute ids value) (given : IsAttribute ids other) :
    IsAttribute ids (value.merge other) := by
  obtain ⟨fields, rfl, keyed, shaped⟩ := whole
  obtain ⟨source, rfl, keyedSource, shapedSource⟩ := given
  rw [record, record, merge_object]
  refine ⟨_, rfl, keyed.mergeFields keyedSource, ?_⟩
  exact shaped.merge shapedSource keyedSource.distinct fun _ _ _ => AttributeField.merge

/-- A copy of an attribute is one again. -/
theorem copied (whole : IsAttribute ids value) : IsAttribute ids value.unshared := by
  obtain ⟨fields, rfl, keyed, shaped⟩ := whole
  refine ⟨unsharedFields fields, by rw [record, unshared, record], ?_, fun key held found => ?_⟩
  · have copy := keyed.unshared
    rwa [record, unshared] at copy
  · rw [get?_unsharedFields] at found
    obtain ⟨before, present, rfl⟩ := Option.map_eq_some_iff.mp found
    exact (shaped key before present).copied

theorem imp {weaker : Text → Prop} (whole : IsAttribute ids value) (implied : ∀ id, ids id → weaker id) :
    IsAttribute weaker value := by
  obtain ⟨fields, rfl, keyed, shaped⟩ := whole
  refine ⟨fields, rfl, keyed, shaped.imp fun key value field => ?_⟩
  exact ⟨field.name, field.enum, fun asked => (field.observable asked).imp_right (implied _)⟩

theorem orNull_name {fields : Fields} (whole : IsAttribute ids (.record fields)) {key : Text}
    (naming : key ∈ namingKeys) : (Entries.orNull key fields).isName = true := by
  unfold Entries.orNull Entries.getOr
  cases found : Entries.get? key fields with
  | none => rfl
  | some value => exact (whole.fields.2 key value found).name naming

end IsAttribute

namespace AreAttributes

variable {attributes : Fields} {name : Text} {value : Value}

theorem nil : AreAttributes ids [] := ⟨Entries.Distinct.nil, fun _ impossible => absurd impossible List.not_mem_nil⟩

theorem of_get? (whole : AreAttributes ids attributes) (found : Entries.get? name attributes = some value) :
    IsAttribute ids value := whole.each _ (Entries.mem_of_get? found)

theorem orEmpty (whole : AreAttributes ids attributes) (name : Text) :
    IsAttribute ids (Entries.orEmpty name attributes) := by
  unfold Entries.orEmpty Entries.getOr
  cases found : Entries.get? name attributes with
  | none => exact .empty
  | some value => exact whole.of_get? found

theorem put (whole : AreAttributes ids attributes) (given : IsAttribute ids value) :
    AreAttributes ids (Entries.put name value attributes) := by
  refine ⟨whole.distinct.put name value, fun entry member => ?_⟩
  rcases Entries.mem_of_mem_put member with added | before
  · rw [added]
    exact given
  · exact whole.each entry before

theorem putNew (whole : AreAttributes ids attributes) (given : IsAttribute ids value) :
    AreAttributes ids (Entries.putNew name value attributes) := by
  unfold Entries.putNew
  split
  · exact whole
  · exact whole.put given

theorem related {relation : Text → Value → Value → Prop} {results : Fields} (whole : AreAttributes ids attributes)
    (treated : Entries.Related relation attributes results)
    (each : ∀ key value result, relation key value result → IsAttribute ids value → IsAttribute ids result) :
    AreAttributes ids results := by
  refine ⟨treated.distinct whole.distinct, fun entry member => ?_⟩
  obtain ⟨origin, present, held⟩ := treated.mem_right member
  exact each _ _ _ held (whole.each _ present)

end AreAttributes

/-! ### Items -/

structure OwnField (kind : ItemKind) (ids : Text → Prop) (key : Text) (value : Value) : Prop where
  profiles : key = "profiles" → TextList (some value)
  label : key ∈ (["caption", "description"] : List Text) → ∃ text : Text, value = .text text
  patchers : key = "_patched_by" → ∃ items, value = .array items
  observable : kind = .object → key = "observable" → ids value.shown

structure ItemField (kind : ItemKind) (ids : Text → Prop) (key : Text) (value : Value) : Prop extends
    OwnField kind ids key value where
  attributes : key = "attributes" → ∃ fields, value = .record fields ∧ AreAttributes ids fields

/-- The keys of an item, the attributes apart, that ask for values of a kind. -/
def ownShapedKeys : List Text := ["profiles", "caption", "description", "_patched_by", "observable"]

variable {kind : ItemKind}

theorem ownField_of_other {key : Text} (other : key ∉ ownShapedKeys) (value : Value) : OwnField kind ids key value where
  profiles same := absurd (same ▸ other) (by decide)
  label asked := by
    simp only [List.mem_cons, List.not_mem_nil, or_false] at asked
    rcases asked with same | same <;> exact absurd (same ▸ other) (by decide)
  patchers same := absurd (same ▸ other) (by decide)
  observable _ same := absurd (same ▸ other) (by decide)

theorem ownField_of_observable {value : Value}
    (held : kind = .object → ids value.shown) : OwnField kind ids "observable" value where
  profiles same := absurd same (by decide)
  label asked := absurd asked (by decide)
  patchers same := absurd same (by decide)
  observable object _ := held object

theorem itemField_of_other {key : Text} (other : key ∉ ("attributes" : Text) :: ownShapedKeys) (value : Value) :
    ItemField kind ids key value where
  toOwnField := ownField_of_other (fun member => other (List.mem_cons_of_mem _ member)) value
  attributes same := absurd (same ▸ List.mem_cons_self ..) other

theorem itemField_attributes {fields : Fields} (whole : AreAttributes ids fields) :
    ItemField kind ids "attributes" (.record fields) where
  toOwnField := ownField_of_other (by decide) _
  attributes _ := ⟨fields, rfl, whole⟩

theorem itemField_profiles {items : List Value} (texts : ∀ value ∈ items, ∃ text : Text, value = .text text) :
    ItemField kind ids "profiles" (.array items) where
  profiles _ := textList_array texts
  label asked := absurd asked (by decide)
  patchers same := absurd same (by decide)
  observable _ same := absurd same (by decide)
  attributes same := absurd same (by decide)

abbrev IsItem (kind : ItemKind) (ids : Text → Prop) (item : Fields) : Prop := Shaped (ItemField kind ids) item

namespace IsItem

variable {item : Fields}

theorem attributesOf (whole : IsItem kind ids item) :
    Draft.attributesOf item = .ok (Entries.attributes item) ∧ AreAttributes ids (Entries.attributes item) := by
  unfold Draft.attributesOf Entries.attributes Entries.orEmpty Entries.getOr
  cases found : Entries.get? "attributes" item with
  | none => exact ⟨rfl, .nil⟩
  | some value =>
      obtain ⟨fields, rfl, attributes⟩ := (whole _ _ found).attributes rfl
      exact ⟨rfl, attributes⟩

theorem areAttributes (whole : IsItem kind ids item) : AreAttributes ids (Entries.attributes item) :=
  whole.attributesOf.2

theorem putAttributes (whole : IsItem kind ids item) {attributes : Fields} (given : AreAttributes ids attributes) :
    IsItem kind ids (Entries.put "attributes" (.record attributes) item) := whole.put (itemField_attributes given)

theorem putOther (whole : IsItem kind ids item) (key : Text) (other : key ∉ ("attributes" : Text) :: ownShapedKeys)
    (value : Value) : IsItem kind ids (Entries.put key value item) := whole.put (itemField_of_other other value)

theorem putNewAttributes (whole : IsItem kind ids item) :
    IsItem kind ids (Entries.putNew "attributes" (.record []) item) := whole.putNew (itemField_attributes .nil)

theorem textList (whole : IsItem kind ids item) : TextList (Entries.get? "profiles" item) := by
  rintro given found
  exact (whole _ _ found).profiles rfl given rfl

theorem profiles_iterate (whole : IsItem kind ids item) :
    (Value.orElse (Entries.get? "profiles" item) (.array [])).iterate = .ok (listed (Entries.get? "profiles" item)) :=
  whole.textList.itemsOrNone

theorem label (whole : IsItem kind ids item) {key : Text} (labels : key ∈ (["caption", "description"] : List Text))
    (default : Text) : ∃ text : Text, Entries.getOr key item (.text default) = .text text := by
  unfold Entries.getOr
  cases found : Entries.get? key item with
  | none => exact ⟨default, rfl⟩
  | some value => exact (whole _ _ found).label labels

end IsItem

end EventSchema
