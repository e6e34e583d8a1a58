import EventSchema.Proofs.Attribute
import EventSchema.Proofs.Lineage.Attributes
import EventSchema.Proofs.Value.Keyed
import EventSchema.Record.Category

/-!
Records and the documents that they are read from.

A record shows every field of its document, in another order: the name, the known fields that are set,
then the others as they are. Only a null among the known fields, an empty list of profiles or patchers,
the mark of a flattened item and what is no attribute are left out, and a name that is not given is the
last part of the key. So a record read from what a record shows is the same record.
-/

set_option autoImplicit false

namespace EventSchema

namespace Entries

/-- What satisfies one of two conditions that exclude each other is what satisfies the first and what
satisfies the second. -/
theorem filter_perm_of_apart {α : Type} (items : List α) (whole first second : α → Bool)
    (either : ∀ item, whole item = (first item || second item))
    (apart : ∀ item, first item = true → second item = false) :
    (items.filter whole).Perm (items.filter first ++ items.filter second) := by
  induction items with
  | nil => exact .nil
  | cons head rest ih =>
      rw [List.filter_cons, List.filter_cons, List.filter_cons, either]
      cases one : first head with
      | true =>
          rw [apart head one]
          exact ih.cons head
      | false =>
          cases second head with
          | true => exact (ih.cons head).trans List.perm_middle.symm
          | false => exact ih

private theorem filter_key {α : Type} {entries : Entries α} (distinct : Distinct entries) (key : Text) :
    (entries.filter fun entry => decide (entry.1 = key)) =
      (get? key entries).toList.map fun value => (key, value) := by
  induction entries with
  | nil => rfl
  | cons head rest ih =>
      have split := List.nodup_cons.mp distinct
      rw [List.filter_cons, get?_cons]
      by_cases same : head.1 = key
      · subst same
        have none : get? head.1 rest = none := get?_eq_none_iff.mpr split.1
        rw [ih split.2, none, if_pos (decide_eq_true rfl), if_pos rfl]
        rfl
      · rw [ih split.2, if_neg same, decide_eq_false same, if_neg Bool.false_ne_true]

/-! ### What a record shows -/

/-- Whether a record shows a field as it was given: it shows no dropped one, no list that is empty, and
no known field that is null. -/
def isSettled (known listings dropped : List Text) (entry : Text × Value) : Bool :=
  if dropped.contains entry.1 then false
  else if listings.contains entry.1 then decide (entry.2 ≠ .array [])
  else if known.contains entry.1 then !entry.2.isNull
  else true

/-- The fields that a record shows as they were given. -/
def settled (known listings dropped : List Text) (fields : Fields) : Fields :=
  fields.filter (isSettled known listings dropped)

/-- The known fields of a record that are set are those of the document that are not null. -/
theorem present_perm {known : List Text} {fields : Fields} (distinct : Distinct fields)
    (once : known.Nodup) :
    (present (known.map fun name => (name, orNull name fields))).Perm
      (fields.filter fun entry => known.contains entry.1 && !entry.2.isNull) := by
  induction known with
  | nil => simp [present]
  | cons key rest ih =>
      obtain ⟨fresh, once⟩ := List.nodup_cons.mp once
      have split := filter_perm_of_apart fields
        (fun entry => (key :: rest).contains entry.1 && !entry.2.isNull)
        (fun entry => !entry.2.isNull && decide (entry.1 = key))
        (fun entry => rest.contains entry.1 && !entry.2.isNull)
        (fun entry => by simp [Bool.and_or_distrib_right, Bool.and_comm])
        (fun entry one => by
          have here : entry.1 = key := of_decide_eq_true (Bool.and_eq_true_iff.mp one).2
          simp [here, fresh])
      have head : (fields.filter fun entry => !entry.2.isNull && decide (entry.1 = key)) =
          present [(key, orNull key fields)] := by
        rw [← List.filter_filter, filter_key distinct, orNull, getOr]
        cases get? key fields <;> rfl
      have apart : present ((key :: rest).map fun name => (name, orNull name fields)) =
          present [(key, orNull key fields)] ++ present (rest.map fun name => (name, orNull name fields)) := by
        rw [List.map_cons, present, present, present, ← List.filter_append]
        rfl
      rw [apart, ← head]
      exact ((ih once).append_left _).trans split.symm

/-- The known fields that are set, the fields that are not known, and the lists that are not empty are
all that is shown. -/
theorem settled_perm (known listings dropped : List Text) {fields : Fields} (distinct : Distinct fields)
    (once : known.Nodup) (known_apart : ∀ key ∈ known, key ∉ dropped ∧ key ∉ listings)
    (listings_apart : ∀ key ∈ listings, key ∉ dropped) :
    (present (known.map fun name => (name, orNull name fields)) ++
      (beside (dropped ++ listings ++ known) fields ++
        fields.filter fun entry => listings.contains entry.1 && decide (entry.2 ≠ .array []))).Perm
      (settled known listings dropped fields) := by
  have whole := filter_perm_of_apart fields (isSettled known listings dropped)
    (fun entry => known.contains entry.1 && !entry.2.isNull)
    (fun entry => isSettled known listings dropped entry && !known.contains entry.1)
    (fun entry => by
      by_cases member : entry.1 ∈ known
      · simp [isSettled, member, (known_apart _ member).1, (known_apart _ member).2]
      · simp [member])
    (fun entry one => by
      have member : entry.1 ∈ known := by simpa using (Bool.and_eq_true_iff.mp one).1
      simp [member])
  have others := filter_perm_of_apart fields
    (fun entry => isSettled known listings dropped entry && !known.contains entry.1)
    (fun entry => !(dropped ++ listings ++ known).contains entry.1)
    (fun entry => listings.contains entry.1 && decide (entry.2 ≠ .array []))
    (fun entry => by
      by_cases listed : entry.1 ∈ listings
      · have unknown : entry.1 ∉ known := fun member => (known_apart _ member).2 listed
        simp [isSettled, listed, listings_apart _ listed, unknown]
      · by_cases member : entry.1 ∈ known
        · simp [member, listed]
        · by_cases drop : entry.1 ∈ dropped <;> simp [isSettled, listed, member, drop])
    (fun entry one => by
      have unlisted : entry.1 ∉ listings := by
        intro listed
        simp [listed] at one
      simp [unlisted])
  exact ((present_perm distinct once).append others.symm).trans whole.symm

/-! ### What is read back -/

private theorem beside_beside (known : List Text) (fields : Fields) :
    beside known (beside known fields) = beside known fields := by
  unfold beside
  rw [List.filter_filter]
  simp

private theorem beside_of_known {known : List Text} {fields : Fields} (all : ∀ entry ∈ fields, entry.1 ∈ known) :
    beside known fields = [] :=
  List.filter_eq_nil_iff.mpr fun entry member => by simp [all entry member]

/-- The fields that a record shows: some in front, the known ones that are set, those that are not
known, and some at the end. -/
def shownFields (head : Fields) (known all : List Text) (fields tail : Fields) : Fields :=
  head ++ (present (known.map fun name => (name, orNull name fields)) ++ beside all fields) ++ tail

section

variable {head tail fields : Fields} {known all : List Text}

private theorem orNull_shownFields (included : ∀ key ∈ known, key ∈ all)
    (before : ∀ entry ∈ head, entry.1 ∉ known) (after : ∀ entry ∈ tail, entry.1 ∉ known) :
    ∀ key ∈ known, orNull key (shownFields head known all fields tail) = orNull key fields := by
  intro key member
  have absent {others : Fields} (apart : ∀ entry ∈ others, entry.1 ∉ known) : get? key others = none :=
    get?_eq_none_iff.mpr fun present => by
      obtain ⟨entry, held, rfl⟩ := List.mem_map.mp present
      exact apart entry held member
  have shown : get? key (shownFields head known all fields tail) =
      (get? key fields).filter fun value => !value.isNull := by
    rw [shownFields, get?_append, get?_append, get?_append, absent before, absent after, get?_present,
      if_pos member, get?_beside, if_pos (included key member)]
    simp
  unfold orNull getOr
  rw [shown]
  cases get? key fields with
  | none => rfl
  | some value => cases value <;> rfl

private theorem beside_shownFields (included : ∀ key ∈ known, key ∈ all) (before : ∀ entry ∈ head, entry.1 ∈ all)
    (after : ∀ entry ∈ tail, entry.1 ∈ all) :
    beside all (shownFields head known all fields tail) = beside all fields := by
  have set : ∀ entry ∈ present (known.map fun name => (name, orNull name fields)), entry.1 ∈ all := by
    intro entry member
    obtain ⟨name, listed, rfl⟩ := List.mem_map.mp (List.mem_filter.mp member).1
    exact included name listed
  have parts (left right : Fields) : beside all (left ++ right) = beside all left ++ beside all right :=
    List.filter_append ..
  rw [shownFields, parts, parts, parts, beside_of_known before, beside_of_known after, beside_of_known set,
    beside_beside]
  simp

private theorem get?_shownFields {key : Text} (unknown : key ∉ known) (member : key ∈ all) :
    get? key (shownFields head known all fields tail) = get? key (head ++ tail) := by
  rw [shownFields, get?_append, get?_append, get?_append, get?_append, get?_present, if_neg unknown,
    get?_beside, if_pos member]
  simp

end

end Entries

/-! ### Names -/

/-- The name that a record shows: that of the document if one is given, or the last part of the key. -/
def shownName (key : Text) (fields : Fields) : Value :=
  if Value.given (Entries.get? "name" fields) then Entries.orNull "name" fields
  else .text key.afterLastSlash

private theorem recordName_eq (key : Text) (fields : Fields) : recordName key fields = shownName key fields := by
  unfold recordName shownName Value.orElse Value.given Entries.orNull Entries.getOr
  cases Entries.get? "name" fields <;> rfl

private theorem recordName_of_shown {key : Text} {fields others : Fields}
    (shown : Entries.get? "name" others = some (recordName key fields)) :
    recordName key others = recordName key fields := by
  rw [recordName, shown, Value.orElse]
  split
  · rfl
  · rename_i empty
    rw [recordName_eq, shownName] at empty ⊢
    split at empty
    · rename_i given
      unfold Value.given at given
      unfold Entries.orNull Entries.getOr at empty
      cases held : Entries.get? "name" fields with
      | none => rw [held] at given; cases given
      | some name => rw [held] at given empty; exact absurd given empty
    · rename_i missing
      rw [if_neg missing]

/-! ### Attributes -/

namespace Attribute

theorem ofFields_congr {name : Text} {fields others : Fields}
    (same : ∀ key ∈ knownKeys, Entries.orNull key others = Entries.orNull key fields)
    (beside : Entries.beside knownKeys others = Entries.beside knownKeys fields) :
    ofFields name others = ofFields name fields := by
  unfold ofFields
  rw [same "type" (by decide), same "object_type" (by decide), same "requirement" (by decide),
    same "caption" (by decide), same "description" (by decide), same "enum" (by decide),
    same "is_array" (by decide), same "profile" (by decide), same "group" (by decide),
    same "@deprecated" (by decide), same "observable" (by decide), same "range" (by decide),
    same "max_len" (by decide), same "regex" (by decide), same "sibling" (by decide),
    same "type_name" (by decide), same "object_name" (by decide), same "extension" (by decide),
    same "extension_id" (by decide), same "_source" (by decide), same "_source_patched" (by decide),
    beside]

theorem toFields_eq (name : Text) (fields : Fields) :
    (ofFields name fields).toFields = Entries.shownFields [] knownKeys knownKeys fields [] :=
  (List.append_nil _).symm

/-- An attribute read from what an attribute shows is the same. -/
theorem ofFields_toFields (name : Text) (fields : Fields) :
    ofFields name (ofFields name fields).toFields = ofFields name fields := by
  rw [toFields_eq]
  exact ofFields_congr (Entries.orNull_shownFields (by simp) (by simp) (by simp))
    (Entries.beside_shownFields (by simp) (by simp) (by simp))

/-- The fields of an attribute's document as the attribute shows them: all but the known ones that are
null. -/
def settled (fields : Fields) : Fields := Entries.settled knownKeys [] [] fields

theorem toFields_perm (name : Text) {fields : Fields} (distinct : Entries.Distinct fields) :
    (ofFields name fields).toFields.Perm (settled fields) := by
  have shown := Entries.settled_perm knownKeys [] [] distinct (by decide) (by simp) (by simp)
  simpa [toFields_eq, Entries.shownFields, settled] using shown

/-- The attributes of a document as a record shows them: the objects among them, each settled. -/
def ShownAs (attributes shown : Fields) : Prop :=
  Entries.Related
    (fun _ value result => ∃ fields : Fields, result = .record fields ∧
      fields.Perm (settled value.inner))
    (attributes.filter fun entry => entry.2.isObject) shown

private theorem shownAs_toValues {attributes : Fields} (keyed : Value.Keyed (.record attributes)) :
    ShownAs attributes (toValues (ofValues attributes)) := by
  unfold ShownAs
  induction attributes with
  | nil => exact .nil
  | cons head rest ih =>
      obtain ⟨name, value⟩ := head
      have others := ih (Value.keyed_cons keyed).2
      cases value with
      | object mark fields =>
          have distinct := (Value.keyed_object.mp (Value.keyed_cons keyed).1).distinct
          exact .cons ⟨rfl, _, rfl, toFields_perm name distinct⟩ others
      | null | bool _ | int _ | float _ | text _ | array _ => exact others

private theorem ofValues_toValues (attributes : Fields) :
    ofValues (toValues (ofValues attributes)) = ofValues attributes := by
  induction attributes with
  | nil => rfl
  | cons head rest ih =>
      obtain ⟨name, value⟩ := head
      cases value with
      | object mark fields =>
          change (name, ofFields name (ofFields name fields).toFields) ::
            ofValues (toValues (ofValues rest)) = (name, ofFields name fields) :: ofValues rest
          rw [ofFields_toFields, ih]
      | null | bool _ | int _ | float _ | text _ | array _ => exact ih

private theorem ofDocument_ok {fields : Fields} {attributes : Entries Attribute}
    (ran : ofDocument (Entries.get? "attributes" fields) = .ok attributes) :
    attributes = ofValues (Entries.attributes fields) := by
  obtain ⟨inner, opened, rfl⟩ := map_eq_ok.mp ran
  rw [Lineage.attributes_of_fieldsOrNone opened]

private theorem ofDocument_shown {fields : Fields} {attributes : Entries Attribute}
    (shown : Entries.get? "attributes" fields = some (.record (toValues attributes)))
    (same : ofValues (toValues attributes) = attributes) :
    ofDocument (Entries.get? "attributes" fields) = .ok attributes := by
  rw [shown, ofDocument]
  refine map_eq_ok.mpr ⟨toValues attributes, ?_, same⟩
  rw [Value.record, Value.fieldsOrNone]
  cases toValues attributes <;> rfl

end Attribute

/-! ### Categories -/

namespace Category

theorem ofFields_congr {key : Text} {fields others : Fields}
    (name : recordName key others = recordName key fields)
    (same : ∀ key ∈ knownKeys, Entries.orNull key others = Entries.orNull key fields)
    (beside : Entries.beside ("name" :: knownKeys) others = Entries.beside ("name" :: knownKeys) fields) :
    ofFields key others = ofFields key fields := by
  unfold ofFields
  rw [name, same "uid" (by decide), same "caption" (by decide), same "description" (by decide),
    same "extension" (by decide), same "extension_id" (by decide), beside]

theorem toFields_eq (key : Text) (fields : Fields) : (ofFields key fields).toFields =
    Entries.shownFields [("name", recordName key fields)] knownKeys ("name" :: knownKeys) fields [] :=
  (List.append_nil _).symm

/-- A category read from what a category shows is the same. -/
theorem ofFields_toFields (key : Text) (fields : Fields) :
    ofFields key (ofFields key fields).toFields = ofFields key fields := by
  rw [toFields_eq]
  have included (key : Text) : key ∈ knownKeys → key ∈ ("name" : Text) :: knownKeys :=
    List.mem_cons_of_mem _
  refine ofFields_congr (recordName_of_shown ?_)
    (Entries.orNull_shownFields included (by simp; decide) (by simp))
    (Entries.beside_shownFields included (by simp) (by simp))
  rw [Entries.get?_shownFields (by decide) (by decide)]
  rfl

/-- The fields of a category's document as the category shows them. -/
def settled (key : Text) (fields : Fields) : Fields :=
  ("name", shownName key fields) :: Entries.settled knownKeys [] ["name"] fields

theorem toFields_perm (key : Text) {fields : Fields} (distinct : Entries.Distinct fields) :
    (ofFields key fields).toFields.Perm (settled key fields) := by
  have shown := Entries.settled_perm knownKeys [] ["name"] distinct (by decide) (by decide) (by simp)
  simpa [toFields_eq, Entries.shownFields, recordName_eq, settled] using shown

end Category

/-! ### Profiles -/

namespace Profile

def ownKeys : List Text := ["attributes", "name"]

theorem ofFields_ok {key : Text} {fields : Fields} {profile : Profile} :
    ofFields key fields = .ok profile ↔ ∃ attributes,
      Attribute.ofDocument (Entries.get? "attributes" fields) = .ok attributes ∧
      profile = {
        key
        name := recordName key fields
        caption := Entries.orNull "caption" fields
        description := Entries.orNull "description" fields
        extension := Entries.orNull "extension" fields
        extensionId := Entries.orNull "extension_id" fields
        extras := Entries.beside (ownKeys ++ knownKeys) fields
        attributes } := by
  unfold ofFields
  rw [bind_eq_ok]
  exact exists_congr fun attributes => and_congr_right fun _ => pure_eq_ok.trans eq_comm

theorem toFields_eq {key : Text} {fields : Fields} {profile : Profile}
    (ran : ofFields key fields = .ok profile) : profile.toFields =
      Entries.shownFields [("name", recordName key fields)] knownKeys (ownKeys ++ knownKeys) fields
        [("attributes", .record (Attribute.toValues profile.attributes))] := by
  obtain ⟨attributes, _, rfl⟩ := ofFields_ok.mp ran
  rfl

theorem ofFields_toFields {key : Text} {fields : Fields} {profile : Profile}
    (ran : ofFields key fields = .ok profile) : ofFields key profile.toFields = .ok profile := by
  have shape := toFields_eq ran
  obtain ⟨attributes, read, made⟩ := ofFields_ok.mp ran
  have given := Attribute.ofDocument_ok read
  have included (key : Text) : key ∈ knownKeys → key ∈ ownKeys ++ knownKeys := List.mem_append_right _
  have known : ∀ name ∈ knownKeys, Entries.orNull name profile.toFields = Entries.orNull name fields := by
    rw [shape]
    exact Entries.orNull_shownFields included (by simp; decide) (by simp; decide)
  have others : Entries.beside (ownKeys ++ knownKeys) profile.toFields =
      Entries.beside (ownKeys ++ knownKeys) fields := by
    rw [shape]
    exact Entries.beside_shownFields included (by simp; decide) (by simp; decide)
  have name : recordName key profile.toFields = recordName key fields := by
    apply recordName_of_shown
    rw [shape, Entries.get?_shownFields (by decide) (by decide)]
    rfl
  refine ofFields_ok.mpr ⟨attributes, Attribute.ofDocument_shown ?_ ?_, ?_⟩
  · rw [shape, Entries.get?_shownFields (by decide) (by decide), made]
    rfl
  · rw [given, Attribute.ofValues_toValues]
  · rw [name, known "caption" (by decide), known "description" (by decide),
      known "extension" (by decide), known "extension_id" (by decide), others, made]

/-- The fields of a profile's document as the profile shows them, with its attributes. -/
def settled (key : Text) (fields attributes : Fields) : Fields :=
  ("name", shownName key fields) :: ("attributes", .record attributes) ::
    Entries.settled knownKeys [] ["attributes", "name"] fields

theorem toFields_perm {key : Text} {fields : Fields} {profile : Profile}
    (distinct : Entries.Distinct fields) (ran : ofFields key fields = .ok profile) :
    profile.toFields.Perm (settled key fields (Attribute.toValues profile.attributes)) := by
  have shown := Entries.settled_perm knownKeys [] ownKeys distinct (by decide) (by decide) (by simp)
  rw [toFields_eq ran, settled, ← recordName_eq, Entries.shownFields, List.append_assoc,
    List.singleton_append]
  refine .cons _ (List.perm_append_singleton _ _ |>.trans (.cons _ ?_))
  simpa [ownKeys] using shown

end Profile

/-! ### Entities -/

namespace Entity

theorem ofFields_ok {key : Text} {kind : ItemKind} {fields : Fields} {entity : Entity} :
    ofFields key kind fields = .ok entity ↔ ∃ profiles attributes patchedBy,
      Value.itemsOrNone (Entries.get? "profiles" fields) = .ok profiles ∧
      Attribute.ofDocument (Entries.get? "attributes" fields) = .ok attributes ∧
      Value.itemsOrNone (Entries.get? "_patched_by" fields) = .ok patchedBy ∧
      entity = {
        key, kind, profiles, attributes, patchedBy
        name := recordName key fields
        caption := Entries.orNull "caption" fields
        description := Entries.orNull "description" fields
        parent := Entries.orNull "extends" fields
        extension := Entries.orNull "extension" fields
        extensionId := Entries.orNull "extension_id" fields
        uid := Entries.orNull "uid" fields
        category := Entries.orNull "category" fields
        categoryUid := Entries.orNull "category_uid" fields
        categoryName := Entries.orNull "category_name" fields
        deprecated := Entries.orNull "@deprecated" fields
        observable := Entries.orNull "observable" fields
        observables := Entries.orNull "observables" fields
        observableInherited := Entries.orNull "observable_inherited?" fields
        origin := Entries.orNull "_origin" fields
        extras := Entries.beside (ownKeys ++ knownKeys) fields } := by
  unfold ofFields
  simp only [bind_eq_ok, pure_eq_ok]
  constructor
  · rintro ⟨profiles, listed, attributes, read, patchedBy, patched, rfl⟩
    exact ⟨profiles, attributes, patchedBy, listed, read, patched, rfl⟩
  · rintro ⟨profiles, attributes, patchedBy, listed, read, patched, rfl⟩
    exact ⟨profiles, listed, attributes, read, patchedBy, patched, rfl⟩

def lastFields (e : Entity) : Fields :=
  let attributes : Fields := [("attributes", .record (Attribute.toValues e.attributes))]
  listField "profiles" e.profiles ++ (listField "_patched_by" e.patchedBy ++ attributes)

def lastKeys : List Text := ["profiles", "_patched_by", "attributes"]

private theorem mem_listField {key : Text} {items : List Value} {entry : Text × Value}
    (member : entry ∈ listField key items) : entry.1 = key := by
  unfold listField at member
  split at member
  · cases member
  · exact congrArg Prod.fst (List.mem_singleton.mp member)

private theorem mem_lastFields {e : Entity} {entry : Text × Value} (member : entry ∈ e.lastFields) :
    entry.1 ∈ lastKeys := by
  unfold lastFields at member
  rcases List.mem_append.mp member with first | later
  · exact mem_listField first ▸ by decide
  · rcases List.mem_append.mp later with second | last
    · exact mem_listField second ▸ by decide
    · have here : entry.1 = "attributes" := congrArg Prod.fst (List.mem_singleton.mp last)
      exact here ▸ by decide

private theorem get?_listField_of_ne {key other : Text} (different : key ≠ other) (items : List Value) :
    Entries.get? other (listField key items) = none :=
  Entries.get?_eq_none_iff.mpr fun present => by
    obtain ⟨entry, member, rfl⟩ := List.mem_map.mp present
    exact different (mem_listField member).symm

private theorem get?_lastFields (e : Entity) :
    Entries.get? "profiles" e.lastFields = Entries.get? "profiles" (listField "profiles" e.profiles) ∧
    Entries.get? "_patched_by" e.lastFields =
      Entries.get? "_patched_by" (listField "_patched_by" e.patchedBy) ∧
    Entries.get? "attributes" e.lastFields = some (.record (Attribute.toValues e.attributes)) := by
  have apart {key other : Text} (different : key ≠ other) (value : Value) :
      Entries.get? other [(key, value)] = none := if_neg different
  have profiles {key : Text} (different : "profiles" ≠ key) := get?_listField_of_ne different e.profiles
  have patchers {key : Text} (different : "_patched_by" ≠ key) :=
    get?_listField_of_ne different e.patchedBy
  unfold lastFields
  simp only [Entries.get?_append]
  refine ⟨?_, ?_, ?_⟩
  · rw [patchers (by decide), apart (by decide), Option.none_or, Option.or_none]
  · rw [profiles (by decide), apart (by decide), Option.none_or, Option.or_none]
  · rw [profiles (by decide), patchers (by decide), Option.none_or, Option.none_or]
    rfl

theorem toFields_eq {key : Text} {kind : ItemKind} {fields : Fields} {entity : Entity}
    (ran : ofFields key kind fields = .ok entity) : entity.toFields =
      Entries.shownFields [("name", recordName key fields)] knownKeys (ownKeys ++ knownKeys) fields
        entity.lastFields := by
  obtain ⟨profiles, attributes, patchedBy, _, _, _, rfl⟩ := ofFields_ok.mp ran
  unfold toFields lastFields Entries.shownFields
  rw [← List.append_assoc, ← List.append_assoc]
  rfl

/-- A list read from how an entity shows it is the same. -/
theorem itemsOrNone_listField (key : Text) (items : List Value) :
    Value.itemsOrNone (Entries.get? key (listField key items)) = .ok items := by
  unfold listField
  cases items with
  | nil => rfl
  | cons head rest =>
      rw [List.isEmpty_cons, if_neg Bool.false_ne_true, Entries.get?_cons, if_pos rfl]
      rfl

theorem ofFields_toFields {key : Text} {kind : ItemKind} {fields : Fields} {entity : Entity}
    (ran : ofFields key kind fields = .ok entity) : ofFields key kind entity.toFields = .ok entity := by
  have shape := toFields_eq ran
  obtain ⟨profiles, attributes, patchedBy, _, read, _, made⟩ := ofFields_ok.mp ran
  have included (key : Text) : key ∈ knownKeys → key ∈ ownKeys ++ knownKeys := List.mem_append_right _
  have unknown : ∀ key ∈ lastKeys, key ∉ knownKeys := by decide
  have own : ∀ key ∈ lastKeys, key ∈ ownKeys ++ knownKeys := by decide
  have known : ∀ name ∈ knownKeys, Entries.orNull name entity.toFields = Entries.orNull name fields := by
    rw [shape]
    exact Entries.orNull_shownFields included (by simp; decide) fun entry member =>
      unknown _ (mem_lastFields member)
  have others : Entries.beside (ownKeys ++ knownKeys) entity.toFields =
      Entries.beside (ownKeys ++ knownKeys) fields := by
    rw [shape]
    exact Entries.beside_shownFields included (by simp; decide) fun entry member =>
      own _ (mem_lastFields member)
  have name : recordName key entity.toFields = recordName key fields := by
    apply recordName_of_shown
    rw [shape, Entries.get?_shownFields (by decide) (by decide)]
    rfl
  have last {name : Text} (listed : name ∈ lastKeys) :
      Entries.get? name entity.toFields = Entries.get? name entity.lastFields := by
    have other : name ≠ "name" := by
      rintro rfl
      exact absurd listed (by decide)
    rw [shape, Entries.get?_shownFields (unknown name listed) (own name listed), List.singleton_append,
      Entries.get?_cons, if_neg (Ne.symm other)]
  have rest : Attribute.ofValues (Attribute.toValues entity.attributes) = entity.attributes := by
    rw [made, Attribute.ofDocument_ok read, Attribute.ofValues_toValues]
  refine ofFields_ok.mpr ⟨entity.profiles, entity.attributes, entity.patchedBy, ?_, ?_, ?_, ?_⟩
  · rw [last (by decide), (get?_lastFields entity).1, itemsOrNone_listField]
  · exact Attribute.ofDocument_shown ((last (by decide)).trans (get?_lastFields entity).2.2) rest
  · rw [last (by decide), (get?_lastFields entity).2.1, itemsOrNone_listField]
  · rw [name, others, known "caption" (by decide), known "description" (by decide),
      known "extends" (by decide), known "extension" (by decide), known "extension_id" (by decide),
      known "uid" (by decide), known "category" (by decide), known "category_uid" (by decide),
      known "category_name" (by decide), known "@deprecated" (by decide),
      known "observable" (by decide), known "observables" (by decide),
      known "observable_inherited?" (by decide), known "_origin" (by decide), made]

def listKeys : List Text := ["profiles", "_patched_by"]

/-- The keys of the fields that an entity does not show as they were given. -/
def remadeKeys : List Text := ["attributes", "_resolved", "name"]

/-- The fields of an entity's document as the entity shows them, with its attributes. -/
def settled (key : Text) (fields attributes : Fields) : Fields :=
  ("name", shownName key fields) :: ("attributes", .record attributes) ::
    Entries.settled knownKeys listKeys remadeKeys fields

def ListOrAbsent (value : Option Value) : Prop := ∀ given ∈ value, ∃ items, given = .array items

private theorem listField_perm {key : Text} {fields : Fields} {items : List Value}
    (distinct : Entries.Distinct fields) (list : ListOrAbsent (Entries.get? key fields))
    (read : Value.itemsOrNone (Entries.get? key fields) = .ok items) :
    listField key items =
      fields.filter fun entry => decide (entry.2 ≠ .array []) && decide (entry.1 = key) := by
  rw [← List.filter_filter, Entries.filter_key distinct]
  cases found : Entries.get? key fields with
  | none =>
      rw [found] at read
      cases read
      rfl
  | some given =>
      obtain ⟨held, rfl⟩ := list given found
      rw [found] at read
      cases held with
      | nil =>
          cases read
          rfl
      | cons head rest =>
          cases read
          rfl

theorem toFields_perm {key : Text} {kind : ItemKind} {fields : Fields} {entity : Entity}
    (distinct : Entries.Distinct fields) (profiles : ListOrAbsent (Entries.get? "profiles" fields))
    (patchedBy : ListOrAbsent (Entries.get? "_patched_by" fields))
    (ran : ofFields key kind fields = .ok entity) :
    entity.toFields.Perm (settled key fields (Attribute.toValues entity.attributes)) := by
  have shown := Entries.settled_perm knownKeys listKeys remadeKeys distinct (by decide) (by decide) (by decide)
  have same : Entries.beside (ownKeys ++ knownKeys) fields =
      Entries.beside (remadeKeys ++ listKeys ++ knownKeys) fields := by
    refine List.filter_congr fun entry _ => ?_
    simp only [ownKeys, listKeys, remadeKeys, List.contains_eq_mem, List.mem_append, List.mem_cons,
      List.not_mem_nil]
    grind
  have lists : (listField "profiles" entity.profiles ++ listField "_patched_by" entity.patchedBy).Perm
      (fields.filter fun entry => listKeys.contains entry.1 && decide (entry.2 ≠ .array [])) := by
    obtain ⟨_, _, _, listed, _, patched, rfl⟩ := ofFields_ok.mp ran
    rw [listField_perm distinct profiles listed, listField_perm distinct patchedBy patched]
    refine (Entries.filter_perm_of_apart _ _ _ _ (fun entry => ?_) fun entry one => ?_).symm
    · simp [listKeys, Bool.and_or_distrib_right, Bool.and_comm]
    · have here : entry.1 = "profiles" := of_decide_eq_true (Bool.and_eq_true_iff.mp one).2
      have other : entry.1 ≠ "_patched_by" := by
        rw [here]
        decide
      rw [decide_eq_false other, Bool.and_false]
  rw [toFields_eq ran, settled, ← recordName_eq, Entries.shownFields, List.append_assoc,
    List.singleton_append, lastFields, same]
  refine .cons _ ?_
  rw [← List.append_assoc, ← List.append_assoc]
  refine (List.perm_append_singleton _ _).trans (.cons _ ?_)
  rw [List.append_assoc, List.append_assoc]
  exact ((lists.append_left _).append_left _).trans shown

end Entity

/-! ### The round trip -/

/-- A record read from what a record shows, under the same key and kind, is the same record, and a record
shows its document: the fields are settled, the name is the one given or the last part of the key, and a
profile or an entity always shows its attributes, which are settled themselves. -/
theorem record_round_trip (key : Text) {fields : Fields} (keyed : Value.Keyed (.record fields)) :
    (Attribute.ofFields key (Attribute.ofFields key fields).toFields = Attribute.ofFields key fields ∧
      (Attribute.ofFields key fields).toFields.Perm (Attribute.settled fields)) ∧
    (Category.ofFields key (Category.ofFields key fields).toFields = Category.ofFields key fields ∧
      (Category.ofFields key fields).toFields.Perm (Category.settled key fields)) ∧
    (∀ profile, Profile.ofFields key fields = .ok profile →
      Profile.ofFields key profile.toFields = .ok profile ∧
      ∃ attributes, Attribute.ShownAs (Entries.attributes fields) attributes ∧
        profile.toFields.Perm (Profile.settled key fields attributes)) ∧
    ∀ kind entity, Entity.ofFields key kind fields = .ok entity →
      Entity.ListOrAbsent (Entries.get? "profiles" fields) →
      Entity.ListOrAbsent (Entries.get? "_patched_by" fields) →
      Entity.ofFields key kind entity.toFields = .ok entity ∧
      ∃ attributes, Attribute.ShownAs (Entries.attributes fields) attributes ∧
        entity.toFields.Perm (Entity.settled key fields attributes) := by
  have distinct := keyed.distinct
  have shown {attributes : Entries Attribute}
      (read : Attribute.ofDocument (Entries.get? "attributes" fields) = .ok attributes) :
      Attribute.ShownAs (Entries.attributes fields) (Attribute.toValues attributes) := by
    rw [Attribute.ofDocument_ok read]
    exact Attribute.shownAs_toValues keyed.attributes
  refine ⟨⟨Attribute.ofFields_toFields key fields, Attribute.toFields_perm key distinct⟩,
    ⟨Category.ofFields_toFields key fields, Category.toFields_perm key distinct⟩, ?_, ?_⟩
  · intro profile ran
    obtain ⟨attributes, read, made⟩ := Profile.ofFields_ok.mp ran
    exact ⟨Profile.ofFields_toFields ran, _, by rw [made]; exact shown read,
      Profile.toFields_perm distinct ran⟩
  · intro kind entity ran profiles patchedBy
    obtain ⟨_, attributes, _, _, read, _, made⟩ := Entity.ofFields_ok.mp ran
    exact ⟨Entity.ofFields_toFields ran, _, by rw [made]; exact shown read,
      Entity.toFields_perm distinct profiles patchedBy ran⟩

/-- A document with the traps: nulls at every level, a known key inside an unknown field, an attribute
that is no object, and keys that are the names of a record's own fields. -/
def trickyDocument : Fields :=
  [("uid", .null), ("parent", .text "base"), ("key", .null), ("deprecated", .bool true),
    ("notes", .record [("caption", .null), ("attributes", .record [("_resolved", .null)])]),
    ("_resolved", .bool true), ("profiles", .array []), ("name", .text ""),
    ("attributes", .record [("id", .record [("type", .null), ("source", .null), ("name", .null)]),
      ("old", .text "removed")])]

theorem record_round_trip_trickyDocument :
    Value.Keyed (.record trickyDocument) ∧
    (∃ entity, Entity.ofFields "dev/host" .eventClass trickyDocument = .ok entity ∧
      Entity.ofFields "dev/host" .eventClass entity.toFields = .ok entity) ∧
    Entity.settled "dev/host" trickyDocument [("id", .record [("source", .null), ("name", .null)])] =
      ([("name", .text "host"),
        ("attributes", .record [("id", .record [("source", .null), ("name", .null)])]),
        ("parent", .text "base"), ("key", .null), ("deprecated", .bool true),
        ("notes", .record [("caption", .null), ("attributes", .record [("_resolved", .null)])])] :
        Fields) := by
  have keyed : Value.Keyed (.record trickyDocument) := by
    simp [trickyDocument, Value.record, Value.Keyed, Value.KeyedFields, Entries.Distinct, Entries.keys]
    decide
  have list : Entity.ListOrAbsent (Entries.get? "profiles" trickyDocument) := by
    rintro given ⟨⟩
    exact ⟨[], rfl⟩
  have absent : Entity.ListOrAbsent (Entries.get? "_patched_by" trickyDocument) := by
    rintro given ⟨⟩
  refine ⟨keyed, ⟨_, rfl, ?_⟩, rfl⟩
  exact ((record_round_trip "dev/host" keyed).2.2.2 .eventClass _ rfl list absent).1

/-- A name that is not empty is replaced too if it does not count as given. -/
theorem name_not_given_is_replaced :
    (Category.ofFields "k" [("name", .bool false)]).toFields = ([("name", .text "k")] : Fields) ∧
    ¬ (Category.ofFields "k" [("name", .bool false)]).toFields.Perm [("name", .bool false)] := by
  have shown : (Category.ofFields "k" [("name", .bool false)]).toFields =
      ([("name", .text "k")] : Fields) := rfl
  refine ⟨shown, fun same => ?_⟩
  rw [shown] at same
  have equal := List.perm_singleton.mp same
  cases equal

end EventSchema
