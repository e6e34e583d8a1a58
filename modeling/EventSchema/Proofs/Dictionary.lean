import EventSchema.Proofs.Attribute
import EventSchema.Proofs.Outcome
import EventSchema.Record.Attribute

/-!
The dictionary and the document that it is read from.

A dictionary takes its document apart into the attributes, the types and what stands beside these two, and
shows them in one document again. Every field is shown where it stood, except known fields of attributes and
types that are null. What stands beside the attributes of the types has no place in the record and is lost.
-/

set_option autoImplicit false

namespace EventSchema

def Value.along : List Text → Value → Option Value
  | [], value => some value
  | key :: path, value => (Entries.get? key value.inner).bind (along path)

private theorem Value.along_append (path others : List Text) (value : Value) :
    along (path ++ others) value = (along path value).bind (along others) := by
  induction path generalizing value with
  | nil => rfl
  | cons key path ih =>
      rw [List.cons_append, along, along]
      cases Entries.get? key value.inner with
      | none => rfl
      | some next => exact ih next

def Value.MapsToObjects (value : Value) : Prop :=
  value.isObject = true ∧ ∀ entry ∈ value.inner, entry.2.isObject = true

private theorem Value.fieldsOrNone_of_object {value : Value} (object : value.isObject = true) :
    Value.fieldsOrNone (some value) = .ok value.inner := by
  cases value with
  | object mark fields => cases fields <;> rfl
  | null | bool _ | int _ | float _ | text _ | array _ => cases object

namespace Attribute

private theorem get?_toValues {attributes : Fields} (objects : ∀ entry ∈ attributes, entry.2.isObject = true)
    (name : Text) :
    Entries.get? name (toValues (ofValues attributes)) =
      (Entries.get? name attributes).map fun value => .record (ofFields name value.inner).toFields := by
  induction attributes with
  | nil => rfl
  | cons head rest ih =>
      obtain ⟨key, value⟩ := head
      obtain ⟨object, others⟩ := List.forall_mem_cons.mp objects
      cases value with
      | object mark fields =>
          have split : toValues (ofValues ((key, .object mark fields) :: rest)) =
              (key, .record (ofFields key fields).toFields) :: toValues (ofValues rest) := rfl
          rw [split, Entries.get?_cons, Entries.get?_cons, ih others]
          by_cases same : key = name
          · subst same
            rw [if_pos rfl, if_pos rfl]
            rfl
          · rw [if_neg same, if_neg same]
      | null | bool _ | int _ | float _ | text _ | array _ => cases object

end Attribute

namespace Dictionary

/-- The paths of the sections of a dictionary, which map names to attributes. -/
def sections : List (List Text) := [["attributes"], ["types", "attributes"]]

/-- A dictionary's document: its sections, as far as they are there, map names to objects. -/
structure Documented (fields : Fields) : Prop where
  types : ∀ value, Value.along ["types"] (.record fields) = some value → value.isObject = true
  sections : ∀ part ∈ sections, ∀ value, Value.along part (.record fields) = some value → value.MapsToObjects

def sectionOf (fields : Fields) (part : List Text) : Fields :=
  ((Value.along part (.record fields)).map Value.inner).getD []

variable {fields : Fields}

theorem Documented.sectionOf (documented : Documented fields) {part : List Text} (member : part ∈ Dictionary.sections) :
    ∀ entry ∈ sectionOf fields part, entry.2.isObject = true := by
  unfold Dictionary.sectionOf
  cases found : Value.along part (.record fields) with
  | none => exact List.forall_mem_nil _
  | some value => exact (documented.sections part member value found).2

private theorem ofDocument_of_objects {fields : Fields}
    (objects : ∀ value, Entries.get? "attributes" fields = some value → value.MapsToObjects) :
    Attribute.ofDocument (Entries.get? "attributes" fields) =
      .ok (Attribute.ofValues (((Entries.get? "attributes" fields).map Value.inner).getD [])) := by
  unfold Attribute.ofDocument
  cases found : Entries.get? "attributes" fields with
  | none => rfl
  | some value =>
      rw [Value.fieldsOrNone_of_object (objects value found).1]
      rfl

/-- What a dictionary takes from its document: the sections, and what stands beside them. -/
def taken (fields : Fields) : Dictionary where
  attributes := Attribute.ofValues (sectionOf fields ["attributes"])
  types := Attribute.ofValues (sectionOf fields ["types", "attributes"])
  extras := Entries.beside ["attributes", "types"] fields

private theorem ofFields_of_documented (documented : Documented fields) : ofFields fields = .ok (taken fields) := by
  have own := ofDocument_of_objects fun value found =>
    documented.sections ["attributes"] (by decide) value (by rw [Value.along, Value.inner_record, found]; rfl)
  have owned : sectionOf fields ["attributes"] = ((Entries.get? "attributes" fields).map Value.inner).getD [] := by
    unfold sectionOf
    rw [Value.along, Value.inner_record]
    cases Entries.get? "attributes" fields <;> rfl
  obtain ⟨inner, opened, typed⟩ : ∃ inner, Value.fieldsOrNone (Entries.get? "types" fields) = .ok inner ∧
      Value.along ["types", "attributes"] (.record fields) = Entries.get? "attributes" inner := by
    rw [Value.along, Value.inner_record]
    cases found : Entries.get? "types" fields with
    | none => exact ⟨[], rfl, rfl⟩
    | some value =>
        have object := documented.types value (by rw [Value.along, Value.inner_record, found]; rfl)
        refine ⟨value.inner, Value.fieldsOrNone_of_object object, ?_⟩
        rw [Option.bind_some, Value.along]
        cases Entries.get? "attributes" value.inner <;> rfl
  have types := ofDocument_of_objects fun value found =>
    documented.sections ["types", "attributes"] (by decide) value (typed.trans found)
  unfold ofFields taken
  rw [own, opened, owned]
  simp only [bind, Except.bind, types, pure, Except.pure, sectionOf, typed]

/-! ### What is shown -/

private theorem along_section (fields : Fields) (part : List Text) (name : Text) (path : List Text) :
    Value.along (part ++ name :: path) (.record fields) =
      (Entries.get? name (sectionOf fields part)).bind (Value.along path) := by
  rw [Value.along_append, sectionOf]
  cases Value.along part (.record fields) <;> rfl

private theorem along_taken (fields : Fields) {part : List Text} (member : part ∈ sections) :
    Value.along part (.record (taken fields).toFields) =
      some (.record (Attribute.toValues (Attribute.ofValues (sectionOf fields part)))) := by
  have beside {key : Text} (own : key ∈ (["attributes", "types"] : List Text)) :
      Entries.get? key (taken fields).extras = none := by rw [taken, Entries.get?_beside, if_pos own]
  rcases List.mem_pair.mp member with rfl | rfl
  · rw [Value.along, Value.inner_record, toFields, Entries.get?_append, beside (by decide)]
    rfl
  · rw [Value.along, Value.inner_record, toFields, Entries.get?_append, beside (by decide)]
    rfl

/-- Inside a section, a dictionary shows under each name what the attribute there shows. -/
theorem along_taken_section (documented : Documented fields) {part : List Text} (member : part ∈ sections)
    (name : Text) (path : List Text) :
    Value.along (part ++ name :: path) (.record (taken fields).toFields) =
      ((Entries.get? name (sectionOf fields part)).map fun value =>
        Value.record (Attribute.ofFields name value.inner).toFields).bind (Value.along path) := by
  rw [Value.along_append, along_taken fields member, Option.bind_some, Value.along, Value.inner_record,
    Attribute.get?_toValues (documented.sectionOf member)]

/-- A dictionary shows its document: beside the sections every field as it was, and in them under each name
every field of what was there, known ones that are null apart. Beside the attributes of the types it shows
nothing. -/
theorem shows_document (documented : Documented fields) :
    ∃ d, ofFields fields = .ok d ∧
      (∀ key : Text, key ≠ "attributes" → key ≠ "types" →
        Value.along [key] (.record d.toFields) = Value.along [key] (.record fields)) ∧
      (∀ part ∈ sections, ∀ name,
        (Value.along (part ++ [name]) (.record d.toFields)).isSome =
          (Value.along (part ++ [name]) (.record fields)).isSome ∧
        ∀ key, Value.along (part ++ [name, key]) (.record d.toFields) =
          Attribute.shown key (Value.along (part ++ [name, key]) (.record fields))) ∧
      ∀ key : Text, key ≠ "attributes" → Value.along ["types", key] (.record d.toFields) = none := by
  refine ⟨taken fields, ofFields_of_documented documented, ?_, ?_, ?_⟩
  · intro key notAttributes notTypes
    have elsewhere : key ∉ (["attributes", "types"] : List Text) := by simp [notAttributes, notTypes]
    have extras : Entries.get? key (taken fields).extras = Entries.get? key fields := by
      rw [taken, Entries.get?_beside, if_neg elsewhere]
    rw [Value.along, Value.along, Value.inner_record, Value.inner_record, toFields, Entries.get?_append, extras]
    simp [Entries.get?_cons, Ne.symm notAttributes, Ne.symm notTypes]
  · intro part member name
    refine ⟨?_, fun key => ?_⟩
    · rw [along_taken_section documented member, along_section]
      cases Entries.get? name (sectionOf fields part) <;> rfl
    · rw [along_taken_section documented member, along_section]
      cases Entries.get? name (sectionOf fields part) with
      | none => simp [Attribute.shown]
      | some value =>
          simp only [Option.map_some, Option.bind_some, Value.along, Value.inner_record, Attribute.get?_toFields]
          simp
  · intro key notAttributes
    have beside : Entries.get? "types" (taken fields).extras = none := by
      rw [taken, Entries.get?_beside, if_pos (by decide)]
    have shown : Value.along ["types"] (.record (taken fields).toFields) =
        some (.record [("attributes", .record (Attribute.toValues (taken fields).types))]) := by
      rw [Value.along, Value.inner_record, toFields, Entries.get?_append, beside]
      rfl
    have split := Value.along_append ["types"] [key] (.record (taken fields).toFields)
    rw [shown, Option.bind_some, Value.along, Value.inner_record, Entries.get?_cons,
      if_neg (Ne.symm notAttributes)] at split
    exact split

/-- A document with the traps: nulls beside the sections and inside them, an attribute without fields, names of
known fields outside attributes, and a caption of the types. -/
def captionedDocument : Fields :=
  [("types", .record [("caption", .text "Data Types"),
      ("attributes", .record [("long_t", .record [("caption", .null), ("notes", .null)])])]),
    ("type", .null), ("caption", .text "Attributes"),
    ("attributes", .record [("empty", .record []),
      ("time", .record [("source", .null), ("type", .text "long_t"), ("enum", .record [("type", .null)])])])]

private theorem documented_captionedDocument : Documented captionedDocument where
  types := by
    rintro value ⟨⟩
    rfl
  sections := by
    intro part member value found
    rcases List.mem_pair.mp member with rfl | rfl
    · cases found
      exact ⟨rfl, by simp [Value.record, Value.inner, Value.isObject]⟩
    · cases found
      exact ⟨rfl, by simp [Value.record, Value.inner, Value.isObject]⟩

theorem shows_document_captionedDocument :
    Documented captionedDocument ∧ ∃ d, ofFields captionedDocument = .ok d ∧
      Value.along ["type"] (.record d.toFields) = some .null ∧
      Value.along ["types", "attributes", "long_t", "notes"] (.record d.toFields) = some .null ∧
      Value.along ["types", "attributes", "long_t", "caption"] (.record d.toFields) = none ∧
      Value.along ["attributes", "time", "enum"] (.record d.toFields) = some (.record [("type", .null)]) ∧
      Value.along ["types", "caption"] (.record d.toFields) = none := by
  obtain ⟨d, read, beside, within, lost⟩ := shows_document documented_captionedDocument
  refine ⟨documented_captionedDocument, d, read, beside "type" (by decide) (by decide), ?_, ?_, ?_, ?_⟩
  · exact ((within ["types", "attributes"] (by decide) "long_t").2 "notes").trans rfl
  · exact ((within ["types", "attributes"] (by decide) "long_t").2 "caption").trans rfl
  · exact ((within ["attributes"] (by decide) "time").2 "enum").trans rfl
  · exact lost "caption" (by decide)

theorem caption_of_types_lost :
    ¬ ∀ fields, Documented fields → ∀ d, ofFields fields = .ok d → ∀ key value, key ≠ "attributes" →
      Value.along ["types", key] (.record fields) = some value →
      Value.along ["types", key] (.record d.toFields) = some value := by
  intro kept
  have shown := kept captionedDocument documented_captionedDocument _ rfl "caption" (.text "Data Types") (by decide) rfl
  cases shown

end Dictionary

end EventSchema
