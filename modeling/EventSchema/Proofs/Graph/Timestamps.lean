import EventSchema.Proofs.Draft.Copies
import EventSchema.Proofs.Draft.Formed
import EventSchema.Proofs.Graph.Finished

/-!
The siblings of timestamps.

A timestamp of a class or an object gets a sibling beside it, whether it is told to be one by the item or
by the dictionary. The sibling has no type of its own. The dictionary has a sibling, with the type that is
expected of both, only for an attribute that is a timestamp there. So the sibling of an attribute that the
item alone says to be a timestamp is left without a type.
-/

set_option autoImplicit false

namespace EventSchema

open Value

/-! ### Attributes without siblings -/

namespace Draft

def Undated (attributes : Fields) : Prop := ∀ origin, Entries.has (datetimeName origin) attributes = false

theorem Undated.absent {attributes : Fields} (undated : Undated attributes) (origin : Text) :
    Entries.get? (datetimeName origin) attributes = none :=
  Option.not_isSome_iff_eq_none.mp (Bool.eq_false_iff.mp (undated origin))

/-- The names of attributes that passes write to classes and to the object for observables. -/
def enrichedNames : List Text := ["type_id", "type_uid", "class_uid", "class_name", "category_uid", "category_name"]

/-- The name of a sibling ends in a `t`. -/
theorem last_datetimeName (origin : Text) : (datetimeName origin).codes.getLast? = some 116 := by
  rw [datetimeName, Text.codes_append, List.getLast?_append]
  rfl

/-- No pass writes an attribute with the name of a sibling. -/
theorem datetimeName_not_enriched (origin : Text) : datetimeName origin ∉ enrichedNames := fun member =>
  absurd (last_datetimeName origin) ((by decide : ∀ name ∈ enrichedNames, name.codes.getLast? ≠ some 116) _ member)

private theorem undated_of_last {attributes : Fields} (last : ∀ name ∈ Entries.keys attributes,
    name.codes.getLast? ≠ some 116) :
    Undated attributes := by
  intro origin
  rw [Bool.eq_false_iff, Ne, Entries.has_iff_mem_keys]
  exact fun member => last _ member (last_datetimeName origin)

/-- Classes are identified by attributes that passes write. -/
theorem identifyingNames_enriched (category : Option (Value × Value)) :
    ∀ name ∈ identifyingNames category, name ∈ enrichedNames := by
  unfold identifyingNames
  split <;> decide

end Draft

namespace Lineage

private theorem hereditary_names {items : Fields} (allowed : Text → Prop) (names : ∀ key mark item,
    Entries.get? key items = some (.object mark item) → ∀ name ∈ Entries.keys (Entries.attributes item), allowed name) :
    Hereditary items (fun attributes => ∀ name ∈ Entries.keys attributes, allowed name) where
  empty := List.forall_mem_nil _
  own key mark item found _ := names key mark item found
  root := by
    intro key mark item found name member
    rw [Entries.keys_mapValues] at member
    obtain ⟨entry, held, rfl⟩ := List.mem_map.mp member
    exact names key mark item found _ (List.mem_map_of_mem (List.mem_of_mem_filter held))
  step := by
    intro key mark item found entry member place fields after all ran
    have own := names key mark item found entry.1 (List.mem_map_of_mem member)
    have written (value : Value) : ∀ name ∈ Entries.keys (Entries.put entry.1 value fields), allowed name := by
      intro name present
      obtain ⟨held, there, rfl⟩ := List.mem_map.mp present
      rcases Entries.mem_of_mem_put there with rfl | old
      · exact own
      · exact all _ (List.mem_map_of_mem old)
    rcases override_cases ran with ⟨_, _, _, _, _, _, _, same, _⟩ | ⟨_, _, same⟩ | ⟨_, same⟩
    · refine ⟨_, same, ?_⟩
      rw [putShared, keys_refreshFields]
      exact written _
    · exact ⟨_, same, written _⟩
    · exact ⟨_, same, written _⟩
  kept attributes all name member := by
    obtain ⟨entry, held, rfl⟩ := List.mem_map.mp member
    exact all _ (List.mem_map_of_mem (List.mem_of_mem_filter held))

end Lineage

/-! ### The dictionary -/

namespace Draft

private theorem get?_withNewSiblings (name : Text) (attributes siblings : Fields) :
    Entries.get? name (withNewSiblings attributes siblings) =
      (Entries.get? name attributes).or (Entries.get? name siblings) := by
  unfold withNewSiblings
  induction siblings generalizing attributes with
  | nil => rw [List.foldl_nil, Entries.get?_nil, Option.or_none]
  | cons head rest ih =>
      rw [List.foldl_cons, ih, Entries.get?_putNew, Entries.get?_cons]
      by_cases here : name = head.1
      · subst here
        rw [if_pos rfl]
        cases Entries.get? head.1 attributes with
        | none => rw [if_pos ⟨rfl, rfl⟩, Option.some_or, Option.none_or]
        | some value => rw [if_neg fun both => absurd both.2 (Option.some_ne_none _), Option.some_or, Option.some_or]
      · rw [if_neg fun both => here both.1, if_neg (Ne.symm here)]

private theorem datetimeSibling?_ok {types field : Fields} {origin : Text} {mark : Option Nat}
    {found : Option (Text × Value)}
    (ran : datetimeSibling? types (origin, .object mark field) = .ok found) :
    (Entries.orNull "type" field = .text "timestamp_t" ∧ ∃ sibling, found = some (datetimeName origin, sibling) ∧
        Entries.orNull "type" sibling.inner = .text "datetime_t") ∨
      Entries.orNull "type" field ≠ .text "timestamp_t" ∧ found = none := by
  have copied : Entries.orNull "type" (unsharedFields field) = .text "timestamp_t" ↔
      Entries.orNull "type" field = .text "timestamp_t" := by
    unfold Entries.orNull Entries.getOr
    rw [get?_unsharedFields]
    cases Entries.get? "type" field with
    | none => rfl
    | some type =>
        refine ⟨text_of_unshared, fun same => ?_⟩
        rw [Option.map_some, Option.getD_some]
        rw [Option.getD_some] at same
        rw [same]
        exact plain_text _
  unfold datetimeSibling? at ran
  rw [Value.unshared, Value.asFields, ok_bind] at ran
  split at ran
  · rename_i timestamp
    obtain ⟨definition, _, ran⟩ := bind_eq_ok.mp ran
    refine Or.inl ⟨copied.mp (equals_text.mp timestamp), _, (pure_eq_ok.mp ran).symm, ?_⟩
    rw [inner_record, Entries.orNull_put_of_ne (by decide), Entries.orNull_put_self]
  · rename_i other
    exact Or.inr ⟨fun same => other (equals_text.mpr (copied.mpr same)), (pure_eq_ok.mp ran).symm⟩

private theorem ownType_sibling {draft resolved : Draft} (distinct : Entries.Distinct draft.attributes)
    (undated : Undated draft.attributes) (enabled : draft.datetimeEnabled = .ok true)
    (ran : draft.resolveDictionary.Yields resolved) (origin : Text) :
    ownType (datetimeName origin) resolved.attributes =
      if ownType origin resolved.attributes = .text "timestamp_t" then .text "datetime_t" else .null := by
  unfold resolveDictionary at ran
  obtain ⟨attributes, each, ran⟩ := Act.yields_bind ran
  obtain ⟨asked, known, ran⟩ := Act.yields_bind ran
  cases enabled.symm.trans (Act.yields_lift.mp known)
  obtain ⟨_, _, ran⟩ := Act.yields_bind ran
  obtain ⟨siblings, collected, ran⟩ := Act.yields_bind ran
  rw [Act.yields_lift] at collected
  have related := Act.yields_mapEntries each
  have unique := related.distinct distinct
  have free (name : Text) : Entries.get? (datetimeName name) attributes = none := by
    rw [Entries.get?_eq_none_iff, related.keys_eq]
    exact Entries.get?_eq_none_iff.mp (undated.absent name)
  have same : resolved.attributes = withNewSiblings attributes siblings := by
    rw [← Act.yields_pure.mp ran]
    rfl
  have objects (name : Text) (value : Value) (found : Entries.get? name attributes = some value) :
      ∃ mark field, value = .object mark field := by
    obtain ⟨_, _, resolving⟩ := related.get?_right found
    have shape := isObject_resolveType resolving
    cases value with
    | object mark field => exact ⟨mark, field, rfl⟩
    | null | bool _ | int _ | float _ | text _ | array _ => cases shape
  -- a sibling comes of a timestamp among the attributes
  have origins (name : Text) (sibling : Value) (found : Entries.get? name siblings = some sibling) :
      ∃ before mark field, name = datetimeName before ∧ Entries.get? before attributes = some (.object mark field) ∧
        Entries.orNull "type" field = .text "timestamp_t" ∧
        Entries.orNull "type" sibling.inner = .text "datetime_t" := by
    obtain ⟨⟨before, value⟩, member, made⟩ := exists_of_filterMapM collected (Entries.mem_of_get? found)
    have held := Entries.get?_of_mem unique member
    obtain ⟨mark, field, rfl⟩ := objects before value held
    rcases datetimeSibling?_ok made with ⟨timestamp, other, told, datetime⟩ | ⟨_, none⟩
    · cases told
      exact ⟨before, mark, field, rfl, held, timestamp, datetime⟩
    · cases none
  have told (name : Text) (value : Value)
      (found : (Entries.get? name attributes).or (Entries.get? name siblings) = some value) :
      ownType name resolved.attributes = Entries.orNull "type" value.inner := by
    rw [same, ownType, Entries.orEmpty, Entries.getOr, get?_withNewSiblings, found, Option.getD_some]
  cases listed : Entries.get? (datetimeName origin) siblings with
  | some sibling =>
      obtain ⟨before, mark, field, named, held, timestamp, datetime⟩ := origins _ sibling listed
      obtain rfl := datetimeName_inj named
      rw [told _ sibling (by rw [free, listed, Option.none_or]), told origin _ (by rw [held, Option.some_or]),
        Value.inner, timestamp, if_pos rfl, datetime]
  | none =>
      have nothing : ownType (datetimeName origin) resolved.attributes = .null := by
        rw [same, ownType, Entries.orEmpty, Entries.getOr, get?_withNewSiblings, free, listed]
        rfl
      rw [nothing, if_neg]
      intro timestamp
      cases held : Entries.get? origin attributes with
      | some value =>
          obtain ⟨mark, field, rfl⟩ := objects origin value held
          rw [told origin _ (by rw [held, Option.some_or]), Value.inner] at timestamp
          obtain ⟨found, made, present⟩ := mem_of_filterMapM collected (Entries.mem_of_get? held)
          rcases datetimeSibling?_ok made with ⟨_, sibling, rfl, _⟩ | ⟨other, _⟩
          · exact absurd (List.mem_map_of_mem (present _ rfl)) (Entries.get?_eq_none_iff.mp listed)
          · exact other timestamp
      | none =>
          cases there : Entries.get? origin siblings with
          | some sibling =>
              obtain ⟨_, _, _, _, _, _, datetime⟩ := origins origin sibling there
              rw [told origin _ (by rw [held, there, Option.none_or]), datetime] at timestamp
              exact absurd timestamp (by decide)
          | none =>
              rw [same, ownType, Entries.orEmpty, Entries.getOr, get?_withNewSiblings, held, there] at timestamp
              cases timestamp

end Draft

/-! ### Copies -/

namespace Scope

/-- A name means nothing only if it is not given or nothing is under it. -/
theorem findBy_none {has : Value → Except Fault Bool} {name : Value} {owner : Option Value}
    (found : findBy has name owner = .ok none) : name.truthy = false ∨ has name = .ok false := by
  have direct (last : (do if ← has name then return some name else return none :
      Except Fault (Option Value)) = .ok none) : has name = .ok false := by
    obtain ⟨present, asked, last⟩ := bind_eq_ok.mp last
    cases present with
    | false => exact asked
    | true => cases last
  unfold findBy at found
  split at found
  · rename_i missing
    exact Or.inl (by simpa using missing)
  · right
    cases owner with
    | none => exact direct found
    | some given =>
        dsimp only at found
        split at found
        · obtain ⟨_, _, found⟩ := bind_eq_ok.mp found
          split at found
          · obtain ⟨_, _, found⟩ := bind_eq_ok.mp found
            split at found
            · cases found
            · exact direct found
          · exact direct found
        · exact direct found

private theorem leaf_of_find?_none {α : Type} {entries : Entries α} {name : Value} {owner : Option Value}
    (given : name.truthy = true) (found : find? entries name owner = .ok none) : name.isObject = false := by
  rcases findBy_none found with missing | asked
  · rw [given] at missing
    cases missing
  · cases name with
    | object mark fields =>
        obtain ⟨_, looked, _⟩ := bind_eq_ok.mp asked
        cases looked
    | null | bool _ | int _ | float _ | text _ | array _ => rfl

end Scope

namespace Draft

private theorem type_siblingFields (field : Fields) : Entries.get? "type" (siblingFields field) = none := by
  rw [siblingFields, Entries.get?_put_of_ne (by decide), Entries.get?_put_of_ne (by decide), Entries.get?_erase,
    if_pos rfl]

private theorem orOptional_siblingFields (field : Fields) :
    orOptional (.record (siblingFields field)) = .record (siblingFields field) := by
  rw [Value.record, orOptional, if_neg]
  rw [siblingFields, Entries.orNull_put_self]
  exact Bool.false_ne_true

/-- A sibling is a copy but for its type and for what tells when it is seen. -/
theorem copies_siblingFields (field : Fields) {key : Text}
    (kept : key ∉ (["type", "profile", "requirement"] : List Text)) : Copies field (siblingFields field) key := by
  simp only [List.mem_cons, List.not_mem_nil, or_false, not_or] at kept
  rw [Copies, siblingFields, Entries.get?_put_of_ne (Ne.symm kept.2.2), Entries.get?_put_of_ne (Ne.symm kept.2.1),
    Entries.get?_erase, if_neg kept.1, Value.get?_unsharedFields]

private theorem meant_copied {α : Type} {objects : Entries α} {item field copied : Fields}
    (type : Copies field copied "object_type") (source : Copies field copied "_source")
    (extension : Copies field copied "extension")
    (nothing : meant objects item field = .ok none) : meant objects item copied = .ok none := by
  unfold meant at nothing ⊢
  rw [type.orNull, Value.truthy_unshared]
  split at nothing
  · rename_i given
    obtain ⟨scope, told, nothing⟩ := bind_eq_ok.mp nothing
    rw [if_pos given, Value.unshared_of_leaf (Scope.leaf_of_find?_none given nothing)]
    rcases extensionOf_copied source extension told with same | other
    · rw [same, ok_bind, nothing]
    · rw [other, ok_bind, Scope.find?_unshared, nothing]
  · rename_i missing
    rw [if_neg missing]

end Draft

/-! ### Profiles that are seen -/

private theorem Value.isAmong_text {text : Text} {items : List Value} (among : (Value.text text).isAmong items = true) :
    .text text ∈ items := by
  obtain ⟨item, member, equal⟩ := List.any_eq_true.mp among
  exact text_equals.mp equal ▸ member

private theorem Entity.mem_withProfiles {entity seen : Entity} {selection : Value} {selected : List Value}
    {entry : Text × Attribute} (given : selection.isNull = false) (listed : selection.iterate = .ok selected)
    (ran : entity.withProfiles selection = .ok seen) (member : entry ∈ seen.attributes) :
    entry ∈ entity.attributes ∧ Entity.isSelected selected entry.2 = .ok true := by
  unfold withProfiles at ran
  rw [given, if_neg Bool.false_ne_true, listed, ok_bind] at ran
  dsimp only at ran
  split at ran
  · obtain ⟨_, impossible, _⟩ := bind_eq_ok.mp ran
    cases impossible
  obtain ⟨attributes, chosen, ran⟩ := bind_eq_ok.mp ran
  split at ran
  · obtain ⟨_, impossible, _⟩ := bind_eq_ok.mp ran
    cases impossible
  rw [← pure_eq_ok.mp ran] at member
  exact mem_of_filterM chosen member

/-! ### The siblings of a graph -/

/-- Definitions with what siblings of timestamps need, the profile and both types, where no attribute has
the name of one. -/
structure Definitions.Datable (d : Definitions) : Prop where
  profile : Draft.holds d.profiles "datetime" = .ok true
  types : ∀ attributes types, d.shared = .ok (attributes, types) →
    Entries.has "datetime_t" types = true ∧ Entries.has "timestamp_t" types = true
  dictionary : ∀ attributes types, d.shared = .ok (attributes, types) → Draft.Undated attributes
  classes : ∀ key mark item, Entries.get? key d.classes.inner = some (.object mark item) →
    Draft.Undated (Entries.attributes item)
  objects : ∀ key mark item, Entries.get? key d.objects.inner = some (.object mark item) →
    Draft.Undated (Entries.attributes item)

structure Graph.IsSibling (graph : Graph) (name : Text) (sibling : Attribute) : Prop where
  profile : sibling.profile = .text "datetime"
  requirement : sibling.requirement = .text "optional"
  type : sibling.type = if graph.dictionary.toldType name .null = .text "timestamp_t" then .text "datetime_t" else .null

structure Graph.Dates (graph : Graph) (entity : Entity) : Prop where
  sibling : ∀ name record, Entries.get? name entity.attributes = some record →
    record.type = .text "timestamp_t" →
    ∃ sibling, Entries.get? (Draft.datetimeName name) entity.attributes = some sibling ∧
      graph.IsSibling name sibling
  profile : ∀ name record, Entries.get? name entity.attributes = some record →
    record.type = .text "timestamp_t" → .text "datetime" ∈ entity.profiles
  unselected : ∀ name record, Entries.get? name entity.attributes = some record →
    record.type = .text "timestamp_t" →
    ∀ selection selected seen, selection.isNull = false → selection.iterate = .ok selected →
      .text "datetime" ∉ selected → entity.withProfiles selection = .ok seen →
      Entries.get? (Draft.datetimeName name) seen.attributes = none

namespace Stages

open Draft

variable {d : Definitions} {graph : Graph} (stages : Stages d graph)

private theorem enabled_of_datable (datable : d.Datable) : stages.closed.datetimeEnabled = .ok true := by
  obtain ⟨_, shared, _, profiles, _⟩ := ofDefinitions_ok stages.starting
  obtain ⟨datetime, timestamp⟩ := datable.types _ _ shared
  rw [stages.datetimeEnabled_closed]
  unfold datetimeEnabled
  rw [profiles, datable.profile, ok_bind, datetime, timestamp]
  rfl

private theorem ownType_dictionary (documents : d.Documents) (datable : d.Datable) (origin : Text) :
    ownType (datetimeName origin) stages.required.attributes =
      if ownType origin stages.required.attributes = .text "timestamp_t" then .text "datetime_t" else .null := by
  obtain ⟨_, shared, _⟩ := ofDefinitions_ok stages.starting
  rw [stages.dictionary_eq]
  refine ownType_sibling ?_ ?_ ?_ stages.resolving origin
  · exact (documents.toKeyed.shared shared).1.distinct
  · exact datable.dictionary _ _ shared
  · have enabled := stages.enabled_of_datable datable
    rw [stages.datetimeEnabled_closed] at enabled
    exact enabled

/-- Attributes of flattened items have no names of siblings, and none is written before those are added. -/
theorem undated_flat {kind : ItemKind} {items flat : Fields} {key : Text}
    (undated : ∀ key mark item, Entries.get? key items = some (.object mark item) → Undated (Entries.attributes item))
    (computed : Lineage.Flat kind items key flat) : Undated (Entries.attributes flat) := by
  have names := (Lineage.hereditary_names (fun name => ∀ origin, datetimeName origin ≠ name)
    fun key mark item found name member origin same => by
      have absent := undated key mark item found origin
      rw [same, Entries.has_iff_mem_keys.mpr member] at absent
      cases absent).flat computed
  intro origin
  rw [Bool.eq_false_iff, Ne, Entries.has_iff_mem_keys]
  exact fun member => names _ member origin rfl

private theorem undated_class (documents : d.Documents) (datable : d.Datable) {key : Text} {item : Fields}
    (found : Entries.get? key stages.closed.classes = some item) : Undated (Entries.attributes item) := by
  have keyed := documents.classes.asFields stages.readClasses
  obtain ⟨flat, category, computed, _, _, _, written⟩ := stages.written_class (keyedDocument_of_keyed keyed) found
  have undated := undated_flat (stages.inner_rawClasses ▸ datable.classes) computed
  intro origin
  rw [Bool.eq_false_iff, Ne, written.has, undated origin]
  rintro (impossible | member)
  · cases impossible
  · exact datetimeName_not_enriched origin (identifyingNames_enriched category _ member)

private theorem undated_object (datable : d.Datable) {key : Text} {item : Fields}
    (found : Entries.get? key stages.closed.objects = some item) : Undated (Entries.attributes item) := by
  obtain ⟨flat, computed, outcome⟩ := stages.closed_object found
  have undated := undated_flat (stages.inner_rawObjects ▸ datable.objects) computed
  rcases outcome with ⟨_, same⟩ | ⟨_, ids, enumeration, _, _, same⟩
  · rw [same]
    exact undated
  · intro origin
    have apart : "type_id" ≠ datetimeName origin := fun named =>
      datetimeName_not_enriched origin (named ▸ List.mem_cons_self ..)
    rw [same, Value.putShared, Entries.has, Value.get?_refreshFields, Option.isSome_map,
      Entries.get?_put_of_ne apart]
    exact undated origin

private theorem toldType_null (name : Text) :
    graph.dictionary.toldType name .null = ownType name stages.required.attributes := by
  rw [← stages.toldType_eq, toldType, if_neg (by decide), stages.sameReferences.1]
  rfl

private theorem timestamp_finished {whole : Fields} {name : Text} {mark own : Option Nat} {field fields : Fields}
    (distinct : Entries.Distinct field)
    (ran : stages.required.finishAttribute whole name (.object mark field) = .ok (.object own fields))
    (timestamp : Entries.orNull "type" fields = .text "timestamp_t") :
    meant stages.required.objects whole field = .ok none ∧
      graph.dictionary.toldType name (Entries.orNull "type" field) = .text "timestamp_t" := by
  obtain ⟨_, _, _, _, shape, result, outcome⟩ := finishAttribute_ok
    (fun shared known => stages.isObject_dictionary known) ran
  cases shape
  cases result
  rcases outcome with ⟨nothing, rfl⟩ | ⟨key, found, refers⟩
  · refine ⟨nothing, ?_⟩
    unfold Entries.orNull Entries.getOr at timestamp ⊢
    cases given : Entries.get? "type" field with
    | some type =>
        rw [stages.over_given distinct given, Option.getD_some] at timestamp
        rw [Option.getD_some, text_of_merge timestamp]
        rfl
    | none =>
        rw [stages.over_absent distinct given] at timestamp
        rw [Option.getD_none, stages.toldType_null]
        change (ownField "type" name stages.required.attributes).getD .null = _
        cases shared : ownField "type" name stages.required.attributes with
        | none =>
            rw [shared] at timestamp
            cases timestamp
        | some type =>
            rw [shared, Option.map_some, Option.getD_some] at timestamp
            exact text_of_unshared timestamp
  · obtain ⟨object, rfl, _⟩ := exists_meant found
    rw [refer_text refers, Entries.orNull_put_of_ne (by decide), Entries.orNull_put_of_ne (by decide),
      Entries.orNull_put_self] at timestamp
    exact absurd timestamp (by decide)

/-- The sibling of an attribute that means no object has the type that the dictionary gives siblings of
that name. -/
theorem sibling_finished {whole : Fields} {origin : Text} {field : Fields} {result : Value}
    (documents : d.Documents) (datable : d.Datable) (distinct : Entries.Distinct field)
    (nothing : meant stages.required.objects whole field = .ok none)
    (ran : stages.required.finishAttribute whole (datetimeName origin) (.record (siblingFields field)) = .ok result) :
    ∃ own fields, result = .object own fields ∧
      graph.IsSibling origin (Attribute.ofFields (datetimeName origin) fields) := by
  have single := distinct_siblingFields distinct
  have nowhere : meant stages.required.objects whole (siblingFields field) = .ok none := meant_copied
    (copies_siblingFields field (by decide)) (copies_siblingFields field (by decide))
    (copies_siblingFields field (by decide)) nothing
  obtain ⟨_, _, own, fields, shape, rfl, outcome⟩ := finishAttribute_ok
    (fun shared known => stages.isObject_dictionary known) ran
  cases shape
  rcases outcome with ⟨_, rfl⟩ | ⟨key, found, _⟩
  · have given (key : Text) (text : Text)
        (known : Entries.get? key (siblingFields field) = some (.text text)) :
        Entries.orNull key (overFields (Entries.get? (datetimeName origin) stages.required.attributes)
          (siblingFields field)) = .text text := by
      rw [Entries.orNull, Entries.getOr, stages.over_given single known, Option.getD_some]
      exact Value.merge_apart (Or.inr rfl)
    refine ⟨own, _, rfl, given "profile" _ ?_, given "requirement" _ ?_, ?_⟩
    · rw [siblingFields, Entries.get?_put_of_ne (by decide), Entries.get?_put_self]
    · rw [siblingFields, Entries.get?_put_self]
    · change Entries.orNull "type" _ = _
      have told := stages.ownType_dictionary documents datable origin
      rw [Entries.orNull, Entries.getOr, stages.over_absent single (type_siblingFields field),
        stages.toldType_null, ← told]
      change _ = (ownField "type" (datetimeName origin) stages.required.attributes).getD .null
      change (ownField "type" (datetimeName origin) stages.required.attributes).getD .null = _ at told
      cases shared : ownField "type" (datetimeName origin) stages.required.attributes with
      | none => rfl
      | some type =>
          rw [shared, Option.getD_some] at told
          rw [Option.map_some, Option.getD_some, Option.getD_some, Value.unshared_of_leaf]
          rw [told]
          split <;> rfl
  · rw [nowhere] at found
    cases found

private theorem timestamp_told {whole attributes siblings finished : Fields} (documents : d.Documents)
    (datable : d.Datable) (distinct : Entries.Distinct attributes)
    (inPlace : ∀ entry ∈ attributes, InPlace entry.2)
    (collected : attributes.filterMapM (stages.closed.siblingOf? attributes) = .ok siblings)
    (treated : Entries.Related (fun name value result =>
        stages.required.finishAttribute whole name (orOptional value) = .ok result)
      (withSiblings attributes siblings) finished) {name : Text} {own : Option Nat} {fields : Fields}
    (known : Entries.get? name finished = some (.object own fields))
    (timestamp : Entries.orNull "type" fields = .text "timestamp_t") :
    ∃ mark field, Entries.get? name attributes = some (.object mark field) ∧
      meant stages.required.objects whole field = .ok none ∧
      graph.dictionary.toldType name (Entries.orNull "type" field) = .text "timestamp_t" := by
  obtain ⟨value, held, ran⟩ := treated.get?_right known
  have added : SiblingsOf stages.closed attributes siblings := Or.inr collected
  rcases added.get? distinct held with old | ⟨absent, origin, before, rfl, present, made⟩
  · obtain ⟨_, _, _, _, shape, _⟩ := finishAttribute_ok (fun shared known => stages.isObject_dictionary known) ran
    obtain ⟨mark, field, rfl⟩ : ∃ mark field, value = .object mark field := by
      have object := isObject_of_orOptional shape
      cases value with
      | object mark field => exact ⟨mark, field, rfl⟩
      | null | bool _ | int _ | float _ | text _ | array _ => cases object
    obtain ⟨own', filled, shape, same⟩ := orOptional_object mark field
    have place := (inPlace_object.mp (inPlace _ (Entries.mem_of_get? old))).2
    have single : Entries.Distinct filled := by
      have kept : Entries.Distinct (orOptional (.object mark field)).inner := distinct_orOptional place
      rwa [shape] at kept
    rw [shape] at ran
    obtain ⟨nothing, told⟩ := stages.timestamp_finished single ran timestamp
    refine ⟨mark, field, old, ?_, ?_⟩
    · exact (meant_congr rfl rfl same).symm.trans nothing
    · rwa [Entries.orNull_congr (same "type" (by decide))] at told
  · obtain ⟨mark, field, rfl, rfl⟩ := siblingOf?_ok made
    have place := (inPlace_object.mp (inPlace _ (Entries.mem_of_get? present))).2
    rw [orOptional_siblingFields] at ran
    obtain ⟨_, told⟩ := stages.timestamp_finished (distinct_siblingFields place) ran timestamp
    rw [Entries.orNull, Entries.getOr, type_siblingFields, Option.getD_none, stages.toldType_null,
      stages.ownType_dictionary documents datable] at told
    split at told
    · exact absurd told (by decide)
    · cases told

private theorem sibling_dated {whole attributes siblings finished : Fields} (documents : d.Documents)
    (datable : d.Datable) (distinct : Entries.Distinct attributes)
    (inPlace : ∀ entry ∈ attributes, InPlace entry.2) (undated : Undated attributes)
    (collected : attributes.filterMapM (stages.closed.siblingOf? attributes) = .ok siblings)
    (treated : Entries.Related (fun name value result =>
        stages.required.finishAttribute whole name (orOptional value) = .ok result)
      (withSiblings attributes siblings) finished) {name : Text} {own : Option Nat} {fields : Fields}
    (known : Entries.get? name finished = some (.object own fields))
    (timestamp : Entries.orNull "type" fields = .text "timestamp_t") :
    siblings ≠ [] ∧ ∃ own fields, Entries.get? (datetimeName name) finished = some (.object own fields) ∧
      graph.IsSibling name (Attribute.ofFields (datetimeName name) fields) := by
  obtain ⟨mark, field, held, nothing, told⟩ :=
    stages.timestamp_told documents datable distinct inPlace collected treated known timestamp
  obtain ⟨made, ran, present⟩ := mem_of_filterMapM collected (Entries.mem_of_get? held)
  rw [← stages.toldType_eq] at told
  obtain ⟨⟨other, copied⟩, rfl⟩ := Option.isSome_iff_exists.mp ((siblingOf?_iff ran).mpr ⟨told, undated name⟩)
  have named : other = datetimeName name := siblingOf?_name ran
  subst named
  have listed : (datetimeName name, copied) ∈ siblings := present _ rfl
  have gathered : datetimeName name ∈ Entries.keys (withSiblings attributes siblings) := key_mem_withSiblings listed
  obtain ⟨value, there⟩ := Option.isSome_iff_exists.mp (Entries.has_iff_mem_keys.mpr gathered)
  have sibling : value = .record (siblingFields field) := by
    have added : SiblingsOf stages.closed attributes siblings := Or.inr collected
    rcases added.get? distinct there with old | ⟨_, origin, before, same, present, made⟩
    · cases old.symm.trans (undated.absent name)
    · cases datetimeName_inj same
      cases present.symm.trans held
      obtain ⟨_, _, same, copied⟩ := siblingOf?_ok made
      cases same
      exact copied
  subst sibling
  obtain ⟨result, last, finishing⟩ := treated.get?_left there
  rw [orOptional_siblingFields] at finishing
  obtain ⟨own, fields, rfl, isSibling⟩ := stages.sibling_finished documents datable
    (inPlace_object.mp (inPlace _ (Entries.mem_of_get? held))).2 nothing finishing
  exact ⟨List.ne_nil_of_mem listed, own, fields, last, isSibling⟩

/-- Every timestamp of a finished item comes with its sibling. -/
theorem dates {kind : ItemKind} {key : Text} {flat item dated required result : Fields} {entity : Entity}
    (documents : d.Documents) (datable : d.Datable) (preserved : Preserved flat item)
    (undated : Undated (Entries.attributes item))
    (passes : Passes stages.closed stages.required true kind key item dated required result)
    (reads : ReadsItem key result entity) : graph.Dates entity := by
  obtain ⟨siblings, ⟨disabled, _⟩ | ⟨_, collected⟩, treated, _, listed⟩ := passes.steps
  · cases disabled
  have unique := treated.distinct (distinct_withSiblings preserved.distinct siblings)
  have each {name : Text} {record : Attribute} (found : Entries.get? name entity.attributes = some record)
      (timestamp : record.type = .text "timestamp_t") : siblings ≠ [] ∧ ∃ own fields,
        Entries.get? (datetimeName name) (Entries.attributes result) = some (.object own fields) ∧
          graph.IsSibling name (Attribute.ofFields (datetimeName name) fields) := by
    rw [reads.attributes] at found
    obtain ⟨own, fields, known, rfl⟩ := Attribute.exists_of_get?_ofValues unique found
    exact stages.sibling_dated documents datable preserved.distinct preserved.inPlace undated collected treated
      known timestamp
  constructor
  · intro name record found timestamp
    obtain ⟨_, own, fields, known, isSibling⟩ := each found timestamp
    exact ⟨_, reads.attributes ▸ Attribute.get?_ofValues known, isSibling⟩
  · intro name record found timestamp
    obtain ⟨some, _⟩ := each found timestamp
    rw [reads.profiles, listed, if_neg some, Value.addNew_append, Value.addNew_cons, Value.addNew_nil]
    split
    · rename_i before
      exact text_isIn.mp before
    · exact List.mem_append_right _ (List.mem_singleton_self _)
  · intro name record found timestamp selection selected seen given listed unselected ran
    obtain ⟨_, own, fields, known, isSibling⟩ := each found timestamp
    refine Option.eq_none_iff_forall_not_mem.mpr fun shown member => ?_
    obtain ⟨before, chosen⟩ := Entity.mem_withProfiles given listed ran (Entries.mem_of_get? member)
    rw [reads.attributes] at before
    obtain ⟨_, _, held, rfl⟩ := exists_of_mem_ofValues before
    cases (Entries.get?_of_mem unique held).symm.trans known
    rw [Entity.isSelected, isSibling.profile, if_neg (by decide), if_pos (by simp [Value.isSetMember])] at chosen
    exact unselected (isAmong_text (Except.ok.inj chosen))

end Stages

/-- A graph has a sibling of every timestamp of its classes and objects, of the type of siblings if the
dictionary has the timestamp as one. -/
theorem Graph.timestamps {d : Definitions} {graph : Graph} (documents : d.Documents) (datable : d.Datable)
    (built : (Graph.ofDefinitions d).Yields graph) :
    (∀ key entity, Entries.get? key graph.classes = some entity → graph.Dates entity) ∧
      ∀ key entity, Entries.get? key graph.objects = some entity → graph.Dates entity := by
  obtain ⟨stages⟩ := exists_stages built
  constructor
  · intro key entity found
    obtain ⟨enabled, item, dated, required, result, asked, held, passes, reads⟩ := stages.passes_class found
    cases asked.symm.trans (stages.enabled_of_datable datable)
    obtain ⟨flat, _, preserved⟩ := stages.preserved_class documents held
    exact stages.dates documents datable preserved (stages.undated_class documents datable held) passes
      (readsItem_of_ok reads)
  · intro key entity found
    obtain ⟨enabled, item, dated, required, result, asked, held, passes, reads⟩ := stages.passes_object found
    cases asked.symm.trans (stages.enabled_of_datable datable)
    obtain ⟨flat, _, preserved⟩ := stages.preserved_object documents held
    exact stages.dates documents datable preserved (stages.undated_object datable held) passes
      (readsItem_of_ok reads)

namespace Graph

/-- A class with two timestamps, one by the dictionary and one that only the class says to be a timestamp. -/
def dating : Definitions where
  version := .text "1.0.0"
  categories := .record []
  dictionary := .record [
    ("attributes", .record [
      ("time", .record [("type", .text "timestamp_t")]), ("seen", .record [("type", .text "string_t")])]),
    ("types", .record [("attributes", .record [
      ("timestamp_t", .record []), ("datetime_t", .record []), ("string_t", .record [])])])]
  classes := .record [("base_event", .record [("attributes", .record [
    ("time", .record []), ("seen", .record [("type", .text "timestamp_t")])])])]
  objects := .record []
  profiles := .record [("datetime", .record [])]
  extensions := []

private theorem documents_dating : dating.Documents :=
  Definitions.documents_of_written (by decide) (by decide) (by decide) (by decide) (by decide)

private theorem datable_dating : dating.Datable where
  profile := rfl
  types attributes types shared := by
    cases shared
    exact ⟨rfl, rfl⟩
  dictionary attributes types shared := by
    cases shared
    exact Draft.undated_of_last (by decide)
  classes key mark item found := by
    cases List.mem_singleton.mp (Entries.mem_of_get? found)
    exact Draft.undated_of_last (by decide)
  objects key mark item found := by cases found

/-- The types of an attribute of a class and of its sibling. -/
def typesOf (name : Text) (graph : Graph) : Option (Value × Value) :=
  (Entries.get? "base_event" graph.classes).bind fun entity =>
    (Entries.get? name entity.attributes).bind fun record =>
      (Entries.get? (Draft.datetimeName name) entity.attributes).map fun sibling => (record.type, sibling.type)

/-- The sibling of the timestamp that the dictionary does not have as one has no type. -/
theorem timestamps_fail_dating : dating.Datable ∧ ∃ graph, (ofDefinitions dating).Yields graph ∧
    typesOf "seen" graph = some (.text "timestamp_t", .null) := by
  have evaluated : ((ofDefinitions dating).outcome {}).1.toOption.map (typesOf "seen") =
      some (some (.text "timestamp_t", .null)) := by
    decide +kernel
  exact ⟨datable_dating, Act.exists_of_outcome evaluated⟩

theorem timestamps_dating : ∃ graph entity sibling, (ofDefinitions dating).Yields graph ∧
    Entries.get? "base_event" graph.classes = some entity ∧
    Entries.get? (Draft.datetimeName "time") entity.attributes = some sibling ∧
    sibling.type = .text "datetime_t" ∧ .text "datetime" ∈ entity.profiles := by
  have evaluated : ((ofDefinitions dating).outcome {}).1.toOption.map (fun graph =>
      (((typesOf "time" graph).map Prod.fst), graph.dictionary.toldType "time" .null)) =
      some (some (.text "timestamp_t"), .text "timestamp_t") := by
    decide +kernel
  obtain ⟨graph, built, shown⟩ := Act.exists_of_outcome evaluated
  obtain ⟨typed, told⟩ := Prod.mk.inj shown
  obtain ⟨both, known, type⟩ := Option.map_eq_some_iff.mp typed
  obtain ⟨entity, found, known⟩ := Option.bind_eq_some_iff.mp known
  obtain ⟨record, held, known⟩ := Option.bind_eq_some_iff.mp known
  obtain ⟨_, _, rfl⟩ := Option.map_eq_some_iff.mp known
  have dates := (timestamps documents_dating datable_dating built).1 _ _ found
  obtain ⟨sibling, there, isSibling⟩ := dates.sibling _ _ held type
  refine ⟨graph, entity, sibling, built, found, there, ?_, dates.profile _ _ held type⟩
  rw [isSibling.type, told, if_pos rfl]

end Graph

end EventSchema
