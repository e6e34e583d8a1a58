import EventSchema.Proofs.Ensures
import EventSchema.Proofs.Lineage.Beside
import EventSchema.Proofs.Sited

/-!
Flattening keeps the shapes of items.

Raw items of the shapes that the schema language asks for, of which none is its own ancestor, are
flattened without a fault. What comes out is of the same shapes: no attribute is null any more, a field
that is merged is of the kind that its key asks for, and any other one is a field of some raw item.
-/

set_option autoImplicit false

namespace EventSchema

open Value

/-- A field of a flattened item of a kind. -/
structure FlatField (kind : ItemKind) (ids : Text → Prop) (key : Text) (value : Value) : Prop extends
    OwnField kind ids key value where
  attributes : key = "attributes" → ∃ fields, value = .record fields
  name : key ∈ (["extends", "category"] : List Text) → value.isName = true
  scope : key = "extension_id" → value.isNull = true ∨ ∃ n : Int, value = .int n

/-- A field of a raw item of a kind. An attribute may be null, which takes it out of what is inherited. -/
structure RawField (kind : ItemKind) (ids : Text → Prop) (key : Text) (value : Value) : Prop extends
    FlatField kind ids key value where
  declared : key = "attributes" → ∀ entry ∈ value.inner, entry.2 = .null ∨ IsAttribute ids entry.2
  observables : key = "observables" → value.isObject = true
  unresolved : key ≠ "_resolved"

structure IsRawItem (kind : ItemKind) (ids : Text → Prop) (item : Fields) : Prop where
  keyed : Keyed (.record item)
  shaped : Shaped (RawField kind ids) item
  sited : ∃ enums, ∀ entry ∈ Entries.attributes item, Sited enums entry.2

structure AreRawItems (kind : ItemKind) (ids : Text → Prop) (items : Fields) : Prop where
  each : ∀ key value, Entries.get? key items = some value → ∃ item, value = .record item ∧ IsRawItem kind ids item
  acyclic : ∀ key, ¬Relation.TransGen (Lineage.Parent items) key key

structure Named (item : Fields) : Prop where
  category : (Entries.orNull "category" item).isName = true
  scope : (Entries.orNull "extension_id" item).isNull = true ∨
    ∃ n : Int, Entries.orNull "extension_id" item = .int n

/-! ### Fields -/

section Fields

variable {kind : ItemKind} {ids : Text → Prop} {key : Text} {value : Value}

/-- The keys of a flattened item that ask for values of a kind, beside those of any item. -/
def flatKeys : List Text := ["attributes", "extends", "category", "extension_id"]

/-- The keys of a raw item that ask for values of a kind, beside those of any item. -/
def rawKeys : List Text := "observables" :: "_resolved" :: flatKeys

private theorem flatField_of_own (other : key ∉ flatKeys) (own : OwnField kind ids key value) :
    FlatField kind ids key value where
  toOwnField := own
  attributes same := absurd (same ▸ other) (by decide)
  name asked := by
    simp only [List.mem_cons, List.not_mem_nil, or_false] at asked
    rcases asked with same | same <;> exact absurd (same ▸ other) (by decide)
  scope same := absurd (same ▸ other) (by decide)

private theorem flatField_attributes (fields : Fields) : FlatField kind ids "attributes" (.record fields) where
  toOwnField := ownField_of_other (by decide) _
  attributes _ := ⟨fields, rfl⟩
  name asked := absurd asked (by decide)
  scope same := absurd same (by decide)

theorem rawField_of_other (other : key ∉ rawKeys) (own : OwnField kind ids key value) : RawField kind ids key value where
  toFlatField := flatField_of_own (fun member => other (List.mem_cons_of_mem _ (List.mem_cons_of_mem _ member))) own
  declared same := absurd (same ▸ other) (by decide)
  observables same := absurd (same ▸ other) (by decide)
  unresolved same := absurd (same ▸ other) (by decide)

theorem rawField_of_name (naming : key ∈ (["extends", "category"] : List Text)) (name : value.isName = true) :
    RawField kind ids key value where
  toOwnField := ownField_of_other (fun member => by
    simp only [List.mem_cons, List.not_mem_nil, or_false] at naming
    rcases naming with rfl | rfl <;> exact absurd member (by decide)) _
  attributes same := absurd (same ▸ naming) (by decide)
  name _ := name
  scope same := absurd (same ▸ naming) (by decide)
  declared same := absurd (same ▸ naming) (by decide)
  observables same := absurd (same ▸ naming) (by decide)
  unresolved same := absurd (same ▸ naming) (by decide)

theorem rawField_attributes {fields : Fields} (each : ∀ entry ∈ fields, entry.2 = .null ∨ IsAttribute ids entry.2) :
    RawField kind ids "attributes" (.record fields) where
  toFlatField := flatField_attributes fields
  declared _ := each
  observables same := absurd same (by decide)
  unresolved := by decide

end Fields

namespace IsRawItem

variable {kind : ItemKind} {ids : Text → Prop} {item : Fields}

private theorem declared (raw : IsRawItem kind ids item) {entry : Text × Value}
    (member : entry ∈ Entries.attributes item) : entry.2 = .null ∨ IsAttribute ids entry.2 := by
  unfold Entries.attributes at member
  split at member
  · rename_i found
    exact (raw.shaped _ _ found).declared rfl entry member
  · cases member

theorem name (raw : IsRawItem kind ids item) {key : Text} (naming : key ∈ (["extends", "category"] : List Text)) :
    (Entries.orNull key item).isName = true := by
  unfold Entries.orNull Entries.getOr
  cases found : Entries.get? key item with
  | none => rfl
  | some value => exact (raw.shaped _ _ found).name naming

theorem unresolved (raw : IsRawItem kind ids item) : Entries.get? "_resolved" item = none := by
  cases found : Entries.get? "_resolved" item with
  | none => rfl
  | some value => exact absurd rfl (raw.shaped _ _ found).unresolved

theorem sections (raw : IsRawItem kind ids item) :
    Value.fieldsOrNone (Entries.get? "attributes" item) = .ok (Entries.attributes item) ∧
      Value.fieldsOrNone (Entries.get? "observables" item) = .ok (Entries.orEmpty "observables" item).inner := by
  constructor
  · obtain ⟨fields, read⟩ := Lineage.fieldsOrNone_of_objects fun value found => by
      obtain ⟨fields, rfl⟩ := (raw.shaped "attributes" value found).attributes rfl
      rfl
    rw [read, Lineage.attributes_of_fieldsOrNone read]
  · unfold Entries.orEmpty Entries.getOr
    cases found : Entries.get? "observables" item with
    | none => rfl
    | some value =>
        have shape := (raw.shaped _ _ found).observables rfl
        cases value with
        | object mark fields => cases fields <;> rfl
        | null | bool _ | int _ | float _ | text _ | array _ => cases shape

end IsRawItem

namespace Lineage

variable {kind : ItemKind} {ids : Text → Prop} {enums : Nat → Prop} {items : Fields}

/-! ### Attributes along a line -/

/-- What has been written of attributes: those that are null are taken out in the end. -/
structure AreWritten (ids : Text → Prop) (enums : Nat → Prop) (attributes : Fields) : Prop where
  distinct : Entries.Distinct attributes
  each : ∀ entry ∈ attributes, entry.2 = .null ∨ IsSited ids enums entry.2

private theorem isSited_sourced (key : Text) {value : Value} (own : IsSited ids enums value) :
    IsSited ids enums (sourced key value) := by
  obtain ⟨fields, rfl⟩ := own.exists_fields
  exact own.putNew (attributeField_of_name (by decide) rfl) (keyed_of_not_object rfl) (sitedField_of_leaf rfl)

/-- An attribute merged over an inherited one stays an attribute, with the source of the inherited one. -/
private theorem isSited_withSource {base merged : Fields} (inherited : IsSited ids enums (.record base))
    (own : IsSited ids enums (.record merged)) : IsSited ids enums (.record (withSource base merged)) := by
  unfold withSource
  split
  · rename_i source found
    split
    · exact own
    · have name := (inherited.whole.fields.2 _ _ found).name (by decide)
      have leaf : source.isObject = false := by rcases name_cases name with rfl | ⟨_, rfl⟩ <;> rfl
      exact own.put (attributeField_of_name (by decide) name) (keyed_of_not_object leaf) (sitedField_of_leaf leaf)
  · exact own

namespace AreWritten

variable {fields : Fields} {name : Text} {value : Value}

theorem put (before : AreWritten ids enums fields) (given : value = .null ∨ IsSited ids enums value) :
    AreWritten ids enums (Entries.put name value fields) := by
  refine ⟨before.distinct.put name value, fun entry member => ?_⟩
  rcases Entries.mem_of_mem_put member with rfl | held
  · exact given
  · exact before.each entry held

theorem putShared (before : AreWritten ids enums fields) (given : IsSited ids enums value) :
    AreWritten ids enums (Value.putShared name value fields) := by
  have written : AreWritten ids enums (Entries.put name value fields) := before.put (Or.inr given)
  refine ⟨?_, fun entry member => ?_⟩
  · rw [Value.putShared, Entries.Distinct, keys_refreshFields]
    exact written.distinct
  · obtain ⟨held, present, same⟩ := exists_of_mem_refreshFields member
    rw [same]
    rcases written.each _ present with null | own
    · rw [show held = .null from null, refresh_of_plain _ .null (unshared_of_leaf rfl)]
      exact Or.inl rfl
    · exact Or.inr (own.refresh given.held)

theorem overridden (before : AreWritten ids enums fields) (key : Text)
    (given : value = .null ∨ IsAttribute ids value) : AreWritten ids enums (overridden key name value fields) := by
  rcases given with rfl | whole
  · have same : Lineage.overridden key name .null fields = Entries.put name .null fields := by
      unfold Lineage.overridden overriding
      cases Entries.get? name fields with
      | none => rfl
      | some held => cases held <;> rfl
    rw [same]
    exact before.put (Or.inl rfl)
  · have copy : IsSited ids enums value.unshared := whole.copied_sited
    obtain ⟨own, rfl, _⟩ := whole
    rw [record, unshared] at copy
    have alone : AreWritten ids enums (Entries.put name _ fields) := before.put (Or.inr (isSited_sourced key copy))
    unfold Lineage.overridden overriding
    cases found : Entries.get? name fields with
    | none => exact alone
    | some held =>
        rcases before.each _ (Entries.mem_of_get? found) with null | inherited
        · rw [show held = .null from null]
          exact alone
        · obtain ⟨base, shape⟩ := inherited.exists_fields
          change held = _ at shape
          subst shape
          refine before.putShared (isSited_withSource inherited ?_)
          have merged := inherited.merge copy
          rwa [record, merge_object] at merged

theorem overrides (before : AreWritten ids enums fields) (key : Text) {own : Fields}
    (given : ∀ entry ∈ own, entry.2 = .null ∨ IsAttribute ids entry.2) :
    AreWritten ids enums (overrides key own fields) := by
  unfold Lineage.overrides
  induction own generalizing fields with
  | nil => exact before
  | cons head rest ih =>
      obtain ⟨first, others⟩ := List.forall_mem_cons.mp given
      exact ih (before.overridden key first) others

theorem kept (before : AreWritten ids enums fields) : AreSited ids enums (kept fields) := by
  refine ⟨before.distinct.filter _, fun entry member => ?_⟩
  obtain ⟨present, given⟩ := List.mem_filter.mp member
  refine (before.each entry present).resolve_left fun null => ?_
  rw [null] at given
  cases given

end AreWritten

/-! ### Items along a line -/

structure IsFlat (kind : ItemKind) (ids : Text → Prop) (enums : Nat → Prop) (flat : Fields) : Prop where
  shaped : Shaped (FlatField kind ids) flat
  attributes : AreSited ids enums (Entries.attributes flat)

namespace IsFlat

variable {flat : Fields}

private theorem put (whole : IsFlat kind ids enums flat) {key : Text}
    (other : key ∉ flatKeys ++ ownShapedKeys) (value : Value) :
    IsFlat kind ids enums (Entries.put key value flat) := by
  obtain ⟨flatOnly, own⟩ := not_or.mp (List.mem_append.not.mp other)
  have beside : key ≠ "attributes" := fun same => flatOnly (same ▸ List.mem_cons_self ..)
  refine ⟨whole.shaped.put (flatField_of_own flatOnly (ownField_of_other own value)), ?_⟩
  rw [Entries.attributes_put_of_ne beside]
  exact whole.attributes

theorem isItem (whole : IsFlat kind ids enums flat) : IsItem kind ids flat := by
  intro key value found
  have field := whole.shaped key value found
  refine ⟨field.toOwnField, ?_⟩
  rintro rfl
  obtain ⟨fields, rfl⟩ := field.attributes rfl
  have own : Entries.attributes flat = fields := by
    rw [Entries.attributes, found]
    rfl
  exact ⟨fields, rfl, own ▸ whole.attributes.areAttributes⟩

theorem named (whole : IsFlat kind ids enums flat) : Named flat := by
  constructor
  · unfold Entries.orNull Entries.getOr
    cases found : Entries.get? "category" flat with
    | none => rfl
    | some value => exact (whole.shaped _ _ found).name (by decide)
  · unfold Entries.orNull Entries.getOr
    cases found : Entries.get? "extension_id" flat with
    | none => exact Or.inl rfl
    | some value => exact (whole.shaped _ _ found).scope rfl

theorem textList (whole : IsFlat kind ids enums flat) : TextList (Entries.get? "profiles" flat) :=
  whole.isItem.textList

end IsFlat

private theorem formed_standalone (key : Text) {item : Fields} (raw : IsRawItem kind ids item) :
    ∃ enums, Ensures (standalone key item) (IsFlat kind ids enums) := by
  obtain ⟨enums, sited⟩ := raw.sited
  refine ⟨enums, ?_⟩
  have written : AreWritten ids enums (Entries.attributes item) :=
    ⟨raw.keyed.attributes.distinct, fun entry member =>
      (raw.declared member).imp_right fun whole => ⟨whole, sited entry member⟩⟩
  unfold standalone
  rw [raw.sections.1, ok_bind]
  refine .pure ⟨(raw.shaped.imp fun _ _ => RawField.toFlatField).put (flatField_attributes _), ?_⟩
  rw [record, Entries.attributes_put]
  refine ⟨written.kept.distinct.mapValues _, fun entry member => ?_⟩
  obtain ⟨origin, present, rfl⟩ := List.mem_map.mp member
  exact isSited_sourced key (written.kept.each origin present)

private theorem formed_takeField {parent item taken : Fields} (above : TextList (Entries.get? "profiles" parent))
    (raw : IsRawItem kind ids item) (before : Shaped (FlatField kind ids) taken) {entry : Text × Value}
    (member : entry ∈ item) : Ensures (takeField parent taken entry.1 entry.2) (Shaped (FlatField kind ids)) := by
  obtain ⟨key, value⟩ := entry
  have field := raw.shaped key value (Entries.get?_of_mem raw.keyed.distinct member)
  unfold takeField
  split
  · exact .ok before
  · split
    · rename_i profiles
      have texts : ∀ list ∈ [Entries.get? "profiles" parent, some value], TextList list :=
        List.forall_mem_cons.mpr ⟨above, List.forall_mem_singleton.mpr (field.profiles profiles)⟩
      rw [mergeProfiles_ok texts]
      refine .pure (before.put (flatField_of_own (by decide) (itemField_profiles fun value member => ?_).toOwnField))
      rcases mem_of_mem_addNew member with impossible | given
      · cases impossible
      · obtain ⟨list, present, inside⟩ := List.mem_flatMap.mp given
        exact (texts list present).text_of_mem inside
    · split
      · split
        · split
          · exact .ok (before.put (flatField_of_own (by decide) (ownField_of_other (by decide) _)))
          · exact .ok before
        · exact .ok (before.put field.toFlatField)
      · exact .ok (before.put field.toFlatField)

private theorem formed_descend (key : Text) {parent item : Fields} (above : IsFlat kind ids enums parent)
    (raw : IsRawItem kind ids item) : Ensures (descend kind key parent item) (IsFlat kind ids enums) := by
  have inherited : Value.orElse (Entries.get? "attributes"
      (ownKeys.foldl (fun fields key => Entries.erase key fields) parent)) (.record []) =
        .record (Entries.attributes parent) := by
    rw [Entries.get?_foldl_erase, if_neg (by decide), Entries.attributes]
    cases found : Entries.get? "attributes" parent with
    | none => rfl
    | some value =>
        obtain ⟨fields, rfl⟩ := (above.shaped _ _ found).attributes rfl
        cases fields <;> rfl
  have start : Shaped (FlatField kind ids)
      (Entries.erase "attributes" (ownKeys.foldl (fun fields key => Entries.erase key fields) parent)) := by
    intro field value found
    rw [Entries.get?_erase, Entries.get?_foldl_erase] at found
    split at found
    · cases found
    · split at found
      · cases found
      · exact above.shaped _ _ found
  unfold descend
  dsimp only
  refine (Ensures.foldlM start fun taken entry member before =>
    formed_takeField above.textList raw before member).bind fun taken shaped => ?_
  rw [raw.sections.1, ok_bind, inherited, overrides_record, ok_bind, Value.record, Value.asFields, ok_bind]
  have written : AreWritten ids enums (overrides key (Entries.attributes item) (Entries.attributes parent)) :=
    AreWritten.overrides ⟨above.attributes.distinct, fun entry member => Or.inr (above.attributes.each entry member)⟩
      key fun entry => raw.declared
  have flat : IsFlat kind ids enums (Entries.put "attributes" (.record (kept
      (overrides key (Entries.attributes item) (Entries.attributes parent)))) taken) := by
    refine ⟨shaped.put (flatField_attributes _), ?_⟩
    rw [record, Entries.attributes_put]
    exact written.kept
  cases kind with
  | object =>
      dsimp only
      split
      · exact .pure (flat.put (by decide) _)
      · split
        · exact .pure (flat.put (by decide) _)
        · exact .pure flat
  | eventClass | profile => exact .pure flat

/-- A line of raw items comes to an item of its shape. The objects that it shares are those of the oldest
item: the others are copied. -/
theorem ensures_inherit {line : List (Text × Fields)} (ancestry : Ancestry items line)
    (raw : ∀ entry ∈ line, IsRawItem kind ids entry.2) : ∃ enums, Ensures (inherit kind line) (IsFlat kind ids enums) := by
  have marked {enums : Nat → Prop} {computation : Except Fault Fields}
      (ensures : Ensures computation (IsFlat kind ids enums)) :
      Ensures (resolved <$> computation) (IsFlat kind ids enums) := by
    obtain ⟨flat, ran, whole⟩ := ensures
    rw [ran]
    exact .ok (whole.put (by decide) _)
  induction ancestry with
  | @root key mark item found start =>
      have own := raw _ (List.mem_singleton_self _)
      obtain ⟨enums, alone⟩ := formed_standalone key own
      refine ⟨enums, ?_⟩
      rw [inherit, own.unresolved, if_neg (by decide)]
      split
      · exact alone
      · exact marked alone
  | @child key mark item parent above found fresh next older ih =>
      obtain ⟨own, others⟩ := List.forall_mem_cons.mp raw
      obtain ⟨enums, inherited⟩ := ih others
      refine ⟨enums, ?_⟩
      rw [inherit]
      exact inherited.bind fun ancestor flat => marked (formed_descend key flat own)

private theorem isRawItem_of_mem (raw : AreRawItems kind ids items) {line : List (Text × Fields)}
    (ancestry : Ancestry items line) : ∀ entry ∈ line, IsRawItem kind ids entry.2 := by
  intro entry member
  obtain ⟨mark, found⟩ := ancestry.object_of_mem member
  obtain ⟨_, same, own⟩ := raw.each _ _ found
  cases same
  exact own

theorem isFlat_of_flat (raw : AreRawItems kind ids items) {key : Text} {flat : Fields}
    (computed : Flat kind items key flat) : ∃ enums, IsFlat kind ids enums flat := by
  obtain ⟨item, above, ancestry, inherited⟩ := computed
  obtain ⟨enums, _, again, whole⟩ := ensures_inherit ancestry (isRawItem_of_mem raw ancestry)
  cases inherited.symm.trans again
  exact ⟨enums, whole⟩

/-! ### The pass -/

theorem exists_findParent (items : Fields) (key : Text) (mark : Option Nat) {item : Fields}
    (name : (Entries.orNull "extends" item).isName = true) :
    ∃ parent?, findParent items key (.object mark item) = .ok parent? := by
  unfold findParent
  rw [Value.asFields, ok_bind]
  cases found : Entries.get? "extends" item with
  | none => exact ⟨_, rfl⟩
  | some parent =>
      rw [Entries.orNull, Entries.getOr, found, Option.getD_some] at name
      rcases name_cases name with rfl | ⟨text, rfl⟩
      · exact ⟨_, rfl⟩
      · dsimp only
        split
        · exact ⟨_, rfl⟩
        · have single : ∃ parent?, (do
              let _ ← (Value.text "/").member (.text text)
              if ← (Value.text text).isEntry items then return (Value.text text).text? else return none :
              Except Fault (Option Text)) = .ok parent? := by
            rw [Value.member, ok_bind, Value.isEntry, Value.lookup?, ok_bind]
            cases (Entries.get? text items).isSome <;> exact ⟨_, rfl⟩
          cases Entries.get? "extension" item with
          | none => exact single
          | some extension =>
              dsimp only
              split
              · rw [Value.member, ok_bind]
                split
                · split
                  · exact ⟨_, rfl⟩
                  · exact single
                · exact single
              · exact single

theorem ensures_flattenAll (raw : AreRawItems kind ids items) :
    (flattenAll kind items).Ensures fun flats =>
      Entries.Related (fun key _ flat => Flat kind items key flat) items flats := by
  have flats : ∀ key ∈ Entries.keys items, ∃ flat, Flat kind items key flat := by
    intro key member
    have objects : ∀ key value, Entries.get? key items = some value →
        ∃ mark item parent?, value = .object mark item ∧
          Value.given (Entries.get? "_resolved" item) = false ∧ findParent items key value = .ok parent? := by
      intro key value found
      obtain ⟨item, rfl, document⟩ := raw.each key value found
      have names : (Entries.orNull "extends" item).isName = true := document.name (by decide)
      obtain ⟨parent?, next⟩ := exists_findParent items key none names
      refine ⟨none, item, parent?, rfl, ?_, next⟩
      rw [document.unresolved]
      rfl
    obtain ⟨item, above, ancestry⟩ := exists_ancestry objects raw.acyclic (Entries.has_iff_mem_keys.mpr member)
    obtain ⟨_, flat, computed, _⟩ := ensures_inherit ancestry (isRawItem_of_mem raw ancestry)
    exact ⟨flat, item, above, ancestry, computed⟩
  have chosen : ∃ flats : Entries Fields,
      List.Forall₂ (fun key flat => flat.1 = key ∧ Flat kind items key flat.2) (Entries.keys items) flats := by
    generalize Entries.keys items = keys at flats
    induction keys with
    | nil => exact ⟨[], .nil⟩
    | cons key rest ih =>
        obtain ⟨first, others⟩ := List.forall_mem_cons.mp flats
        obtain ⟨flat, computed⟩ := first
        obtain ⟨flats, each⟩ := ih others
        exact ⟨(key, flat) :: flats, .cons ⟨rfl, computed⟩ each⟩
  intro run
  obtain ⟨flats, each⟩ := chosen
  obtain ⟨kept, after, ran⟩ := mapM_flatten_complete run Sound.nil each
  have ended : (flattenAll kind items).outcome run = (.ok flats, after) := by
    rw [outcome_flattenAll, flattenEach, ran]
  exact ⟨flats, after, ended, flattenAll_ok (.of_outcome ended)⟩

end Lineage

end EventSchema
