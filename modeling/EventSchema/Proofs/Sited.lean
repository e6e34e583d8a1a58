import EventSchema.Proofs.Shape

/-!
Attributes that share objects.

What is written into a shared object shows wherever the object is. So the enumerations of some attributes may
be shared with one another, but with nothing else: then each of them stays an enumeration, and every other
field stays of the kind that its key asks for, whatever is merged into one of the attributes.
-/

set_option autoImplicit false

namespace EventSchema

open Value

variable {ids : Text → Prop} {enums : Nat → Prop} {key : Text} {value : Value}

/-! ### Where marks stand -/

/-- A field of an attribute with the marks of its place: those in `enums` belong to enumerations, and to
nothing inside of one. -/
def SitedField (enums : Nat → Prop) (key : Text) (value : Value) : Prop :=
  if key = "enum" then
    ∀ mark fields, value = .object mark fields → (∀ m ∈ mark, enums m) ∧ MarkedFields (fun m => ¬enums m) fields
  else Marked (fun m => ¬enums m) value

def Sited (enums : Nat → Prop) (value : Value) : Prop := Shaped (SitedField enums) value.inner

theorem sitedField_enum {mark : Option Nat} {fields : Fields} : SitedField enums "enum" (.object mark fields) ↔
    (∀ m ∈ mark, enums m) ∧ MarkedFields (fun m => ¬enums m) fields := by
  rw [SitedField, if_pos rfl]
  constructor
  · exact fun sited => sited mark fields rfl
  · rintro sited _ _ ⟨⟩
    exact sited

theorem sitedField_of_plain (plain : Plain value) : SitedField enums key value := by
  unfold SitedField
  split
  · rintro mark fields rfl
    obtain ⟨rfl, inside⟩ := plain_object.mp plain
    refine ⟨(fun _ impossible => by cases impossible), ?_⟩
    exact markedFields_iff.mpr fun entry member => (plainFields_iff.mp inside entry member).marked
  · exact plain.marked

theorem sitedField_of_leaf (leaf : value.isObject = false) : SitedField enums key value :=
  sitedField_of_plain (unshared_of_leaf leaf)

theorem SitedField.merge {old : Value} (before : SitedField enums key old) (given : SitedField enums key value) :
    SitedField enums key (old.merge value) := by
  unfold SitedField at before given ⊢
  split
  · rename_i same
    rw [if_pos same] at before given
    rintro mark fields shape
    by_cases apart : old.isObject = false ∨ value.isObject = false
    · rw [merge_apart apart] at shape
      exact given mark fields shape
    · cases old with
      | object _ into => cases value with
        | object other source =>
            rw [merge_object] at shape
            cases shape
            obtain ⟨kept, inside⟩ := before _ into rfl
            exact ⟨kept, MarkedFields.merge into source inside (given other source rfl).2⟩
        | null | bool _ | int _ | float _ | text _ | array _ => exact absurd (Or.inr rfl) apart
      | null | bool _ | int _ | float _ | text _ | array _ => exact absurd (Or.inl rfl) apart
  · rename_i other
    rw [if_neg other] at before given
    exact Marked.merge old value before given

/-! ### Attributes -/

/-- An attribute all marks of which are in their places. -/
structure IsSited (ids : Text → Prop) (enums : Nat → Prop) (value : Value) : Prop where
  whole : IsAttribute ids value
  sited : Sited enums value

namespace IsSited

variable {fields : Fields}

theorem exists_fields (own : IsSited ids enums value) : ∃ fields, value = .record fields := by
  obtain ⟨fields, rfl, _⟩ := own.whole
  exact ⟨fields, rfl⟩

theorem put (own : IsSited ids enums (.record fields)) (field : AttributeField ids key value) (keyed : Keyed value)
    (sited : SitedField enums key value) : IsSited ids enums (.record (Entries.put key value fields)) :=
  ⟨own.whole.put field keyed, Shaped.put own.sited sited⟩

theorem putNew (own : IsSited ids enums (.record fields)) (field : AttributeField ids key value) (keyed : Keyed value)
    (sited : SitedField enums key value) : IsSited ids enums (.record (Entries.putNew key value fields)) :=
  ⟨own.whole.putNew field keyed, Shaped.putNew own.sited sited⟩

theorem merge {other : Value} (own : IsSited ids enums value) (given : IsSited ids enums other) :
    IsSited ids enums (value.merge other) := by
  obtain ⟨fields, rfl⟩ := own.exists_fields
  obtain ⟨source, rfl⟩ := given.exists_fields
  refine ⟨own.whole.merge given.whole, ?_⟩
  rw [record, record, merge_object]
  exact Shaped.merge own.sited given.sited given.whole.keyed.distinct fun _ _ _ => SitedField.merge

end IsSited

/-- A copy of an attribute shares nothing. -/
theorem IsAttribute.copied_sited (whole : IsAttribute ids value) : IsSited ids enums value.unshared := by
  refine ⟨whole.copied, ?_⟩
  obtain ⟨fields, rfl, _⟩ := whole
  intro key held found
  rw [record, unshared, Value.inner, get?_unsharedFields] at found
  obtain ⟨own, _, rfl⟩ := Option.map_eq_some_iff.mp found
  exact sitedField_of_plain (plain_unshared own)

/-! ### Keeping attributes in step -/

/-- A shared object with its present content: an enumeration if its mark says so. -/
structure Held (enums : Nat → Prop) (known : Nat × Value) : Prop where
  object : known.2.isObject = true
  keyed : Keyed known.2
  enumeration : enums known.1 → known.2.isSection = true ∧ SitedField enums "enum" known.2
  other : ¬enums known.1 → Marked (fun m => ¬enums m) known.2

private theorem held_of_marked (keyed : Keyed value) (marked : Marked (fun m => ¬enums m) value) :
    ∀ known ∈ occurrences value, Held enums known := fun known member => {
  object := isObject_of_mem_occurrences value known member
  keyed := Keyed.occurrences value keyed known member
  enumeration := fun own => absurd own (marked known member)
  other := fun _ => marked.inside value known member }

private theorem held_of_enumeration {mark : Option Nat} {fields : Fields}
    (keyed : Keyed (.object mark fields)) (whole : (Value.object mark fields).isSection = true)
    (sited : SitedField enums "enum" (.object mark fields)) :
    ∀ known ∈ occurrences (.object mark fields), Held enums known := by
  obtain ⟨own, inside⟩ := sitedField_enum.mp sited
  have inner : ∀ known ∈ occurrencesFields fields, Held enums known :=
    forall_mem_occurrencesFields.mpr fun entry member =>
      held_of_marked ((keyed_object.mp keyed).of_mem member) (markedFields_iff.mp inside entry member)
  cases mark with
  | none =>
      rw [occurrences]
      exact inner
  | some m =>
      rw [occurrences, List.forall_mem_cons]
      exact ⟨⟨rfl, keyed, fun _ => ⟨whole, sited⟩, fun foreign => absurd (own m rfl) foreign⟩, inner⟩

theorem IsSited.held (own : IsSited ids enums value) : ∀ known ∈ occurrences value, Held enums known := by
  obtain ⟨⟨fields, rfl, keyed, shaped⟩, sited⟩ := own
  rw [record, occurrences]
  refine forall_mem_occurrencesFields.mpr fun entry member => ?_
  obtain ⟨key, value⟩ := entry
  have found := Entries.get?_of_mem keyed.distinct member
  have place := sited key value found
  by_cases same : key = "enum"
  · subst same
    have listed := (shaped _ _ found).enum rfl
    cases value with
    | object mark fields => exact held_of_enumeration (keyed.of_mem member) listed place
    | null | bool _ | int _ | float _ | text _ | array _ => cases listed
  · rw [SitedField, if_neg same] at place
    exact held_of_marked (keyed.of_mem member) place

section Refresh

variable {known : Occurrences} (each : ∀ entry ∈ known, Held enums entry)

include each

private theorem renews : Renews (refresh known) (refreshFields known) := renews_refresh fun entry member =>
  (each entry member).object

private theorem marked_refresh (marked : Marked (fun m => ¬enums m) value) :
    Marked (fun m => ¬enums m) (refresh known value) :=
  Marked.refresh (fun entry member foreign => (each entry member).other foreign) value marked

private theorem refresh_enumeration (whole : value.isSection = true) (sited : SitedField enums "enum" value) :
    (refresh known value).isSection = true ∧ SitedField enums "enum" (refresh known value) := by
  cases value with
  | object mark fields =>
      obtain ⟨own, inside⟩ := sitedField_enum.mp sited
      rw [refresh]
      cases found : current? known mark with
      | none =>
          refine ⟨isSection_iff.mpr fun entry member => ?_, sitedField_enum.mpr ⟨own, ?_⟩⟩
          · obtain ⟨before, present, same⟩ := exists_of_mem_refreshFields member
            rw [same]
            exact (renews each).object before (isSection_iff.mp whole _ present)
          · exact MarkedFields.refresh (fun entry member foreign => (each entry member).other foreign) fields inside
      | some present =>
          obtain ⟨place, marks, member⟩ := mem_of_current? found
          exact (each _ member).enumeration (own place marks)
  | null | bool _ | int _ | float _ | text _ | array _ => cases whole

private theorem refresh_field (field : AttributeField ids key value) (sited : SitedField enums key value) :
    AttributeField ids key (refresh known value) ∧ SitedField enums key (refresh known value) := by
  by_cases same : key = "enum"
  · subst same
    obtain ⟨whole, sited⟩ := refresh_enumeration each (field.enum rfl) sited
    exact ⟨attributeField_of_enum whole, sited⟩
  · refine ⟨⟨fun naming => ?_, fun enum => absurd enum same, fun observable => ?_⟩, ?_⟩
    · have leaf : value.isObject = false := by
        rcases name_cases (field.name naming) with rfl | ⟨_, rfl⟩ <;> rfl
      rw [(renews each).leaf value leaf]
      exact field.name naming
    · rw [(renews each).leaf value (field.observable observable).1]
      exact field.observable observable
    · rw [SitedField, if_neg same] at sited ⊢
      exact marked_refresh each sited

/-- An attribute stays one when objects that it shares change, if these are changed in their places. -/
theorem IsSited.refresh (own : IsSited ids enums value) : IsSited ids enums (value.refresh known) := by
  obtain ⟨⟨fields, rfl, keyed, shaped⟩, sited⟩ := own
  have fieldwise (key : Text) (held : Value) (found : Entries.get? key (refreshFields known fields) = some held) :
      AttributeField ids key held ∧ SitedField enums key held := by
    rw [get?_refreshFields] at found
    obtain ⟨before, present, rfl⟩ := Option.map_eq_some_iff.mp found
    exact refresh_field each (shaped _ _ present) (sited _ _ present)
  rw [(renews each).record]
  refine ⟨⟨_, rfl, keyed.refreshFields fun entry member => (each entry member).keyed, ?_⟩, ?_⟩
  · exact fun key held found => (fieldwise key held found).1
  · exact fun key held found => (fieldwise key held found).2

end Refresh

/-- The enumeration is the only object of an attribute that has its mark. -/
private theorem IsSited.eq_enumeration {fields : Fields} (own : IsSited ids enums (.record fields))
    (found : Entries.get? "enum" fields = some value) :
    ∀ known ∈ occurrences (.record fields), enums known.1 → known.2 = value := by
  rw [record, occurrences]
  refine forall_mem_occurrencesFields.mpr fun entry member known among marked => ?_
  obtain ⟨key, held⟩ := entry
  have present := Entries.get?_of_mem own.whole.keyed.distinct member
  have place := own.sited key held present
  by_cases same : key = "enum"
  · subst same
    cases found.symm.trans present
    cases value with
    | object mark inside =>
        have foreign := (sitedField_enum.mp place).2
        cases mark with
        | none =>
            rw [occurrences] at among
            exact absurd marked (foreign known among)
        | some m =>
            rw [occurrences] at among
            rcases List.mem_cons.mp among with here | there
            · rw [here]
            · exact absurd marked (foreign known there)
    | null | bool _ | int _ | float _ | text _ | array _ => simp [occurrences] at among
  · rw [SitedField, if_neg same] at place
    exact absurd marked (place known among)

private theorem IsSited.refresh_own {fields enumeration : Fields} {mark : Option Nat}
    (own : IsSited ids enums (.record fields))
    (found : Entries.get? "enum" fields = some (.object mark enumeration)) :
    ∃ shown, Value.refresh (occurrences (.record fields)) (.object mark enumeration) = .object mark shown ∧
      Entries.keys shown = Entries.keys enumeration ∧
      ∀ id value, Entries.get? id enumeration = some value → Plain value → Entries.get? id shown = some value := by
  have place := (sitedField_enum.mp (own.sited _ _ found)).1
  rw [Value.refresh]
  cases known : current? (occurrences (.record fields)) mark with
  | none =>
      refine ⟨_, rfl, keys_refreshFields _ _, fun id value held plain => ?_⟩
      rw [get?_refreshFields, held, Option.map_some, refresh_of_plain _ _ plain]
  | some present =>
      obtain ⟨m, marks, member⟩ := mem_of_current? known
      obtain rfl : present = .object mark enumeration := own.eq_enumeration found _ member (place m marks)
      exact ⟨enumeration, rfl, rfl, fun _ _ held _ => held⟩

/-- An attribute that is written has its enumeration afterwards: the same keys, and the same entries where
these share nothing. -/
theorem IsSited.get?_putShared {fields enumeration : Fields} {mark : Option Nat} (own : IsSited ids enums (.record fields))
    (found : Entries.get? "enum" fields = some (.object mark enumeration)) (name : Text) (attributes : Fields) :
    ∃ field shown, Entries.get? name (putShared name (.record fields) attributes) = some (.record field) ∧
      Keyed (.record field) ∧ Entries.get? "enum" field = some (.object mark shown) ∧
      Entries.keys shown = Entries.keys enumeration ∧
      ∀ id value, Entries.get? id enumeration = some value → Plain value → Entries.get? id shown = some value := by
  obtain ⟨shown, same, entries⟩ := own.refresh_own found
  have whole := (own.refresh own.held).whole.keyed
  rw [(renews own.held).record] at whole
  refine ⟨_, shown, ?_, whole, ?_, entries⟩
  · rw [putShared, get?_refreshFields, Entries.get?_put_self, Option.map_some, (renews own.held).record]
  · rw [get?_refreshFields, found, Option.map_some, same]

/-! ### The attributes of an item -/

structure AreSited (ids : Text → Prop) (enums : Nat → Prop) (attributes : Fields) : Prop where
  distinct : Entries.Distinct attributes
  each : ∀ entry ∈ attributes, IsSited ids enums entry.2

namespace AreSited

variable {attributes : Fields} {name : Text}

theorem areAttributes (own : AreSited ids enums attributes) : AreAttributes ids attributes :=
  ⟨own.distinct, fun entry member => (own.each entry member).whole⟩

theorem orEmpty (own : AreSited ids enums attributes) (name : Text) :
    IsSited ids enums (Entries.orEmpty name attributes) := by
  unfold Entries.orEmpty Entries.getOr
  cases found : Entries.get? name attributes with
  | none => exact ⟨.empty, fun _ _ impossible => by cases impossible⟩
  | some value => exact own.each _ (Entries.mem_of_get? found)

theorem putShared (own : AreSited ids enums attributes) (given : IsSited ids enums value) :
    AreSited ids enums (Value.putShared name value attributes) := by
  refine ⟨?_, fun entry member => ?_⟩
  · rw [Value.putShared, Entries.Distinct, keys_refreshFields]
    exact own.distinct.put name value
  · obtain ⟨held, present, same⟩ := exists_of_mem_refreshFields member
    rw [same]
    refine IsSited.refresh given.held ?_
    rcases Entries.mem_of_mem_put present with added | before
    · rw [show held = value from congrArg Prod.snd added]
      exact given
    · exact own.each _ before

end AreSited

end EventSchema
