import EventSchema.Draft.Classes
import EventSchema.Proofs.Draft.Attributes

/-!
What identifying a class does to its attributes.

A class that is identified has fields written in a few of its attributes: enumerations, descriptions
and sources. Nothing is taken away, no other field is written, and no other attribute.
-/

set_option autoImplicit false

namespace EventSchema

theorem Value.inner_of_falsy {value : Value} (missing : ¬value.truthy = true) : value.inner = [] := by
  cases value with
  | object mark fields =>
      cases fields with
      | nil => rfl
      | cons head rest => exact absurd rfl missing
  | null | bool _ | int _ | float _ | text _ | array _ => rfl

namespace Draft

inductive Retouched (source : Text) (before : Fields) : Fields → Prop where
  | same : Retouched source before before
  | field {after : Fields} {key : Text} {changed value : Value} (name : Text)
      (earlier : Retouched source before after) (written : key = "enum" ∨ key = "description")
      (wrote : (Entries.orEmpty name after).withField key value = .ok changed) :
      Retouched source before (Entries.put name changed after)
  | source {after : Fields} (name : Text) (earlier : Retouched source before after) :
      Retouched source before (setSource name source after)

theorem Retouched.setIn {source : Text} {before attributes after : Fields} {name key : Text}
    {value : Value} (earlier : Retouched source before attributes)
    (written : key = "enum" ∨ key = "description")
    (ran : setIn name key value attributes = .ok after) : Retouched source before after := by
  unfold Draft.setIn at ran
  obtain ⟨changed, wrote, ran⟩ := bind_eq_ok.mp ran
  rw [← pure_eq_ok.mp ran]
  exact earlier.field name written wrote

/-- The activities that the attributes of a class list: those of `activity_id` if it is there, or else those
of `disposition_id`. -/
def ownActivities (attributes : Fields) : Fields :=
  (Entries.orNull "enum" (Value.orElse (Entries.get? "activity_id" attributes)
    (Entries.orNull "disposition_id" attributes)).inner).inner

theorem listTypes_steps {key : Text} {uid caption : Value} {attributes after : Fields}
    (ran : (listTypes key uid caption attributes).Yields after) :
    ∃ types unknown listed, ((ownActivities attributes).foldlM (addActivity key uid caption) []).Yields types ∧
      Uid.activity uid (.int 0) = .ok unknown ∧
      setIn "type_uid" "enum" (.record (Entries.put unknown.shown
        (.record [("caption", .text (caption.shown ++ ": Unknown"))]) types)) attributes = .ok listed ∧
      after = setSource "type_uid" key listed := by
  have tail : ∀ types : Fields, ((ownActivities attributes).foldlM (addActivity key uid caption) []).Yields types →
      (do
        let unknown ← (Uid.activity uid (.int 0) : Except Fault Value)
        let types := Entries.put unknown.shown
          (.record [("caption", .text (caption.shown ++ ": Unknown"))]) types
        return setSource "type_uid" key (← setIn "type_uid" "enum" (.record types) attributes) :
        Act Fields).Yields after → ∃ types unknown listed,
          ((ownActivities attributes).foldlM (addActivity key uid caption) []).Yields types ∧
          Uid.activity uid (.int 0) = .ok unknown ∧
          setIn "type_uid" "enum" (.record (Entries.put unknown.shown
            (.record [("caption", .text (caption.shown ++ ": Unknown"))]) types)) attributes = .ok listed ∧
          after = setSource "type_uid" key listed := by
    intro types gathered last
    obtain ⟨unknown, zero, last⟩ := Act.yields_bind last
    obtain ⟨listed, wrote, last⟩ := Act.yields_bind last
    exact ⟨types, unknown, listed, gathered, Act.yields_lift.mp zero, Act.yields_lift.mp wrote,
      (Act.yields_pure.mp last).symm⟩
  have none (empty : ownActivities attributes = []) :
      ((ownActivities attributes).foldlM (addActivity key uid caption) []).Yields [] := by
    rw [empty, List.foldlM_nil]
    exact Act.yields_pure.mpr rfl
  unfold listTypes at ran
  dsimp only at ran
  split at ran
  · obtain ⟨enclosing, opened, ran⟩ := Act.yields_bind ran
    obtain ⟨mark, shape⟩ := Value.inner_of_asFields (Act.yields_lift.mp opened)
    obtain ⟨enumeration, known, ran⟩ := Act.yields_bind ran
    cases Act.yields_pure.mp known
    have own : ownActivities attributes = (Entries.orNull "enum" enclosing).inner := by
      rw [ownActivities, shape, Value.inner]
    split at ran
    · obtain ⟨activities, opened, ran⟩ := Act.yields_bind ran
      obtain ⟨mark, shape⟩ := Value.inner_of_asFields (Act.yields_lift.mp opened)
      obtain ⟨types, gathered, ran⟩ := Act.yields_bind ran
      rw [shape, Value.inner] at own
      exact tail types (own ▸ gathered) ran
    · rename_i missing
      obtain ⟨_, _, ran⟩ := Act.yields_bind ran
      exact tail [] (none (own.trans (Value.inner_of_falsy missing))) ran
  · rename_i missing
    have own : ownActivities attributes = [] := by
      rw [ownActivities, Value.inner_of_falsy missing]
      rfl
    obtain ⟨enumeration, known, ran⟩ := Act.yields_bind ran
    cases Act.yields_pure.mp known
    split at ran
    · rename_i impossible
      cases impossible
    · obtain ⟨_, _, ran⟩ := Act.yields_bind ran
      obtain ⟨types, empty, ran⟩ := Act.yields_bind ran
      cases Act.yields_pure.mp empty
      exact tail [] (none own) ran

private theorem listTypes_ok {key : Text} {uid caption : Value} {before attributes after : Fields}
    (earlier : Retouched key before attributes)
    (ran : (listTypes key uid caption attributes).Yields after) : Retouched key before after := by
  obtain ⟨_, _, listed, _, _, wrote, rfl⟩ := listTypes_steps ran
  exact (earlier.setIn (Or.inl rfl) wrote).source _

private theorem listClass_ok {key : Text} {uid caption description : Value} {before attributes after : Fields}
    (earlier : Retouched key before attributes)
    (ran : listClass key uid caption description attributes = .ok after) :
    Retouched key before after := by
  unfold listClass at ran
  obtain ⟨listed, first, ran⟩ := bind_eq_ok.mp ran
  exact ((earlier.setIn (Or.inl rfl) first).source _).setIn (Or.inr rfl) ran

private theorem listCategory_ok {key : Text} {uid category : Value} {before attributes after : Fields}
    (earlier : Retouched key before attributes)
    (ran : listCategory key uid category attributes = .ok after) : Retouched key before after := by
  unfold listCategory at ran
  obtain ⟨listed, first, ran⟩ := bind_eq_ok.mp ran
  obtain ⟨_, _, ran⟩ := bind_eq_ok.mp ran
  exact ((earlier.setIn (Or.inl rfl) first).source _).setIn (Or.inr rfl) ran

/-! ### Where identifying a class writes -/

def ownType (name : Text) (attributes : Fields) : Value :=
  Entries.orNull "type" (Entries.orEmpty name attributes).inner

structure WrittenAt (names : List Text) (before after : Fields) : Prop where
  beside : Entries.SameBeside names before after
  present : ∀ name ∈ names, Entries.has name after = true
  types : ∀ name, ownType name after = ownType name before

namespace WrittenAt

variable {names : List Text} {before attributes after : Fields} {name key : Text}

theorem none (attributes : Fields) : WrittenAt [] attributes attributes :=
  ⟨.refl _ _, fun _ member => absurd member List.not_mem_nil, fun _ => rfl⟩

theorem put (earlier : WrittenAt names before attributes) {value : Value}
    (same : Entries.orNull "type" value.inner = ownType name attributes) :
    WrittenAt (name :: names) before (Entries.put name value attributes) where
  beside := (earlier.beside.mono fun _ => List.mem_cons_of_mem _).put (List.mem_cons_self ..) _
  present := by
    intro other member
    rw [Entries.has, Entries.get?_put]
    split
    · rfl
    · rename_i different
      exact earlier.present other ((List.mem_cons.mp member).resolve_left different)
  types := by
    intro other
    rw [← earlier.types other]
    by_cases here : other = name
    · rw [here, ownType, Entries.orEmpty_put_self, same]
    · rw [ownType, Entries.orEmpty_put_of_ne (Ne.symm here), ownType]

theorem setIn (earlier : WrittenAt names before attributes) {value : Value} (kept : key ≠ "type")
    (ran : setIn name key value attributes = .ok after) : WrittenAt (name :: names) before after := by
  unfold Draft.setIn at ran
  obtain ⟨changed, wrote, ran⟩ := bind_eq_ok.mp ran
  rw [← pure_eq_ok.mp ran]
  refine earlier.put ?_
  rw [ownType]
  cases target : Entries.orEmpty name attributes with
  | object mark fields =>
      rw [target] at wrote
      rw [← Except.ok.inj wrote]
      exact Entries.orNull_put_of_ne kept ..
  | null | bool _ | int _ | float _ | text _ | array _ =>
      rw [target] at wrote
      cases wrote

theorem source (earlier : WrittenAt names before attributes) (member : name ∈ names) (source : Text) :
    WrittenAt names before (setSource name source attributes) := by
  unfold setSource
  split
  · rename_i mark fields found
    have written : WrittenAt (name :: names) before
        (Entries.put name (.object mark (Entries.putNew "_source" (.text source) fields)) attributes) := by
      refine earlier.put ?_
      rw [ownType, Entries.orEmpty, Entries.getOr, found]
      refine Entries.orNull_congr ?_
      rw [Value.inner, Entries.get?_putNew, if_neg (fun both => absurd both.1 (by decide))]
      rfl
    have inside : ∀ other, other ∈ name :: names → other ∈ names := by
      intro other here
      rcases List.mem_cons.mp here with rfl | there
      · exact member
      · exact there
    exact ⟨written.beside.mono inside, fun other held => written.present other (List.mem_cons_of_mem _ held),
      written.types⟩
  · exact earlier

theorem listTypes (earlier : WrittenAt names before attributes) {uid caption : Value}
    (ran : (listTypes key uid caption attributes).Yields after) :
    WrittenAt ("type_uid" :: names) before after := by
  obtain ⟨_, _, listed, _, _, wrote, rfl⟩ := listTypes_steps ran
  exact (earlier.setIn (by decide) wrote).source (List.mem_cons_self ..) _

theorem listClass (earlier : WrittenAt names before attributes) {uid caption description : Value}
    (ran : listClass key uid caption description attributes = .ok after) :
    WrittenAt ("class_name" :: "class_uid" :: names) before after := by
  unfold Draft.listClass at ran
  obtain ⟨listed, first, ran⟩ := bind_eq_ok.mp ran
  exact ((earlier.setIn (by decide) first).source (List.mem_cons_self ..) _).setIn (by decide) ran

theorem listCategory (earlier : WrittenAt names before attributes) {uid category : Value}
    (ran : listCategory key uid category attributes = .ok after) :
    WrittenAt ("category_name" :: "category_uid" :: names) before after := by
  unfold Draft.listCategory at ran
  obtain ⟨listed, first, ran⟩ := bind_eq_ok.mp ran
  obtain ⟨_, _, ran⟩ := bind_eq_ok.mp ran
  exact ((earlier.setIn (by decide) first).source (List.mem_cons_self ..) _).setIn (by decide) ran

end WrittenAt

/-- The attributes that tell what a class is identified by: those of its category only if that is known. -/
def identifyingNames (category : Option (Value × Value)) : List Text :=
  (if category.isSome then ["category_name", "category_uid"] else []) ++ ["class_name", "class_uid", "type_uid"]

/-- The fields of an item that identifying a class may write. -/
def identifiers : List Text :=
  ["attributes", "category_name", "category", "uid", "category_uid"]

private theorem reportCategory_ok {key : Text} {name : Value} {item result : Fields}
    (ran : (reportCategory key name item).Yields result) :
    ¬name.equals (.text "other") = true ∧ result = item ∨
      name.equals (.text "other") = true ∧ result = Entries.put "category_uid" (.int 0) item := by
  unfold reportCategory at ran
  split at ran
  · rename_i other
    obtain ⟨_, _, ran⟩ := Act.yields_bind ran
    exact Or.inr ⟨other, (Act.yields_pure.mp ran).symm⟩
  · rename_i known
    refine Or.inl ⟨known, ?_⟩
    split at ran
    · split at ran
      · obtain ⟨_, _, ran⟩ := Act.yields_bind ran
        exact (Act.yields_pure.mp ran).symm
      · exact (Act.yields_pure.mp ran).symm
    · obtain ⟨_, _, ran⟩ := Act.yields_bind ran
      exact (Act.yields_pure.mp ran).symm

def SameButIdentifiers (item result : Fields) : Prop :=
  ∀ field, field ∉ identifiers → Entries.get? field result = Entries.get? field item

theorem SameButIdentifiers.put {item result : Fields} (same : SameButIdentifiers item result)
    (field : Text) (written : field ∈ identifiers) (value : Value) :
    SameButIdentifiers item (Entries.put field value result) := by
  intro other outside
  rw [Entries.get?_put_of_ne, same other outside]
  rintro rfl
  exact outside written

theorem SameButIdentifiers.putNew {item : Fields} {field : Text} (written : field ∈ identifiers)
    (value : Value) : SameButIdentifiers item (Entries.putNew field value item) := by
  intro other outside
  rw [Entries.get?_putNew, if_neg]
  rintro ⟨rfl, _⟩
  exact outside written

/-- What a class is identified by: its category, if that is known, its number there, and the uid that
comes of both. Its attributes are retouched, and the identifiers are written beside them. -/
theorem identify_steps {draft : Draft} {key : Text} {item result : Fields}
    (ran : (identify draft key item).Yields result) :
    ∃ category whole number own outer uid attributes,
      categoryOf draft (Entries.putNew "attributes" (.record []) item) = .ok category ∧
      (category = none ∧ number = .int 0 ∧ whole = Entries.putNew "attributes" (.record []) item ∨
        ∃ name value fields, category = some (name, value) ∧ value.asFields = .ok fields ∧
          number = Entries.getOr "uid" fields (.int 0) ∧
          whole = Entries.put "category_name" (Entries.orNull "caption" fields)
            (Entries.put "category" name (Entries.putNew "attributes" (.record []) item))) ∧
      (localUid key whole).Yields own ∧
      Uid.categoryOfClass (Entries.orNull "extension_id" whole) number = .ok outer ∧
      Uid.eventClass outer own = .ok uid ∧
      (Retouched key (Entries.attributes item) attributes ∧
        WrittenAt (identifyingNames category) (Entries.attributes item) attributes ∧
        ∃ typed, (listTypes key uid (Entries.getOr "caption" item (.text "UNKNOWN"))
          (Entries.attributes item)).Yields typed ∧
          Entries.get? "type_uid" attributes = Entries.get? "type_uid" typed) ∧
      (category ≠ none ∧ result = Entries.put "attributes" (.record attributes)
          (Entries.put "category_uid" number (Entries.put "uid" uid whole)) ∨
        category = none ∧ ((¬(Entries.orNull "category" item).equals (.text "other") = true ∧
            result = Entries.put "attributes" (.record attributes) (Entries.put "uid" uid whole)) ∨
          ((Entries.orNull "category" item).equals (.text "other") = true ∧
            result = Entries.put "category_uid" (.int 0)
              (Entries.put "attributes" (.record attributes) (Entries.put "uid" uid whole))))) := by
  unfold identify at ran
  dsimp only at ran
  obtain ⟨category, known, ran⟩ := Act.yields_bind ran
  rw [Act.yields_lift] at known
  cases category with
  | some category =>
      obtain ⟨fields, opened, ran⟩ := Act.yields_bind ran
      obtain ⟨pair, made, ran⟩ := Act.yields_bind ran
      rw [Act.yields_pure] at made
      subst made
      obtain ⟨own, numbered, ran⟩ := Act.yields_bind ran
      obtain ⟨outer, scoping, ran⟩ := Act.yields_bind ran
      obtain ⟨uid, composed, ran⟩ := Act.yields_bind ran
      obtain ⟨attributes, read, ran⟩ := Act.yields_bind ran
      obtain ⟨typed, types, ran⟩ := Act.yields_bind ran
      obtain ⟨classed, itself, ran⟩ := Act.yields_bind ran
      obtain ⟨listed, around, ran⟩ := Act.yields_bind ran
      have before := attributes_of_ok (Act.yields_lift.mp read)
      rw [Entries.attributes_put_of_ne (by decide), Entries.attributes_put_of_ne (by decide),
        Entries.attributes_put_of_ne (by decide), attributes_putNew] at before
      have retouched := listCategory_ok (listClass_ok (listTypes_ok Retouched.same types)
        (Act.yields_lift.mp itself)) (Act.yields_lift.mp around)
      have written := (((WrittenAt.none attributes).listTypes types).listClass
        (Act.yields_lift.mp itself)).listCategory (Act.yields_lift.mp around)
      have kept := (((WrittenAt.none typed).listClass (Act.yields_lift.mp itself)).listCategory
        (Act.yields_lift.mp around)).beside "type_uid" (by decide)
      exact ⟨some category, _, _, own, outer, uid, listed, known,
        Or.inr ⟨category.1, category.2, fields, rfl, Act.yields_lift.mp opened, rfl, rfl⟩, numbered,
        Act.yields_lift.mp scoping, Act.yields_lift.mp composed, before ▸ ⟨retouched, written, typed, types, kept⟩,
        Or.inl ⟨Option.some_ne_none _, (Act.yields_pure.mp ran).symm⟩⟩
  | none =>
      obtain ⟨pair, made, ran⟩ := Act.yields_bind ran
      rw [Act.yields_pure] at made
      subst made
      obtain ⟨own, numbered, ran⟩ := Act.yields_bind ran
      obtain ⟨outer, scoping, ran⟩ := Act.yields_bind ran
      obtain ⟨uid, composed, ran⟩ := Act.yields_bind ran
      obtain ⟨attributes, read, ran⟩ := Act.yields_bind ran
      obtain ⟨typed, types, ran⟩ := Act.yields_bind ran
      obtain ⟨classed, itself, ran⟩ := Act.yields_bind ran
      have before := attributes_of_ok (Act.yields_lift.mp read)
      rw [Entries.attributes_put_of_ne (by decide), attributes_putNew] at before
      have retouched := listClass_ok (listTypes_ok Retouched.same types) (Act.yields_lift.mp itself)
      have written := ((WrittenAt.none attributes).listTypes types).listClass (Act.yields_lift.mp itself)
      have kept := ((WrittenAt.none typed).listClass (Act.yields_lift.mp itself)).beside "type_uid" (by decide)
      exact ⟨none, _, _, own, outer, uid, classed, known, Or.inl ⟨rfl, rfl, rfl⟩, numbered,
        Act.yields_lift.mp scoping, Act.yields_lift.mp composed, before ▸ ⟨retouched, written, typed, types, kept⟩,
        Or.inr ⟨rfl, reportCategory_ok ran⟩⟩

theorem identify_ok {draft : Draft} {key : Text} {item result : Fields}
    (ran : (identify draft key item).Yields result) :
    Retouched key (Entries.attributes item) (Entries.attributes result) ∧
      SameButIdentifiers item result := by
  obtain ⟨category, whole, number, own, outer, uid, attributes, _, shape, _, _, _, ⟨retouched, _⟩, written⟩ :=
    identify_steps ran
  have start : SameButIdentifiers item (Entries.putNew "attributes" (.record []) item) :=
    SameButIdentifiers.putNew (by decide) _
  have named : SameButIdentifiers item whole := by
    rcases shape with ⟨_, _, rfl⟩ | ⟨name, _, fields, _, _, _, rfl⟩
    · exact start
    · exact (start.put "category" (by decide) name).put "category_name" (by decide) _
  have numbered := named.put "uid" (by decide) uid
  rcases written with ⟨_, rfl⟩ | ⟨_, ⟨_, rfl⟩ | ⟨_, rfl⟩⟩
  · rw [Entries.attributes_put_record]
    exact ⟨retouched, (numbered.put "category_uid" (by decide) number).put "attributes" (by decide) _⟩
  · rw [Entries.attributes_put_record]
    exact ⟨retouched, numbered.put "attributes" (by decide) _⟩
  · rw [Entries.attributes_put_of_ne (by decide), Entries.attributes_put_record]
    exact ⟨retouched, (numbered.put "attributes" (by decide) _).put "category_uid" (by decide) _⟩

theorem categoryOf_congr {draft : Draft} {item other : Fields}
    (category : Entries.get? "category" other = Entries.get? "category" item)
    (extension : Entries.get? "extension" other = Entries.get? "extension" item) :
    categoryOf draft other = categoryOf draft item := by
  unfold categoryOf
  rw [Entries.orNull_congr category, extension]

theorem identify_writtenAt {draft : Draft} {key : Text} {item result : Fields}
    (ran : (identify draft key item).Yields result) :
    ∃ category, categoryOf draft item = .ok category ∧
      WrittenAt (identifyingNames category) (Entries.attributes item) (Entries.attributes result) := by
  obtain ⟨category, whole, number, own, outer, uid, attributes, known, _, _, _, _, ⟨_, written, _⟩, shape⟩ :=
    identify_steps ran
  have apart {field : Text} (other : field ≠ "attributes") :
      Entries.get? field (Entries.putNew "attributes" (.record []) item) = Entries.get? field item := by
    rw [Entries.get?_putNew, if_neg fun both => other both.1]
  rw [categoryOf_congr (apart (by decide)) (apart (by decide))] at known
  refine ⟨category, known, ?_⟩
  rcases shape with ⟨_, rfl⟩ | ⟨_, ⟨_, rfl⟩ | ⟨_, rfl⟩⟩
  · rwa [Entries.attributes_put_record]
  · rwa [Entries.attributes_put_record]
  · rwa [Entries.attributes_put_of_ne (by decide), Entries.attributes_put_record]

end Draft

end EventSchema
