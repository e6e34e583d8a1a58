import EventSchema.Proofs.Attribute
import EventSchema.Proofs.Graph.Touched

/-!
What the graph has of a flattened item.

After an item is flattened, its attributes are written, given siblings, made optional and finished, one
pass after another. What comes of it can be told in one step: an attribute of the graph is the flattened
one over that of the dictionary, and it names the object that it refers to. Only the attributes that
tell what a class is identified by, and the list of observables, are written anew.
-/

set_option autoImplicit false

namespace EventSchema

/-! ### One attribute -/

namespace Draft

def meant {α : Type} (objects : Entries α) (item field : Fields) : Except Fault (Option Value) :=
  if (Entries.orNull "object_type" field).truthy then do
    Scope.find? objects (Entries.orNull "object_type" field) (some (← extensionOf field item))
  else .ok none

theorem meant_congr {α β : Type} {objects : Entries α} {others : Entries β} {item other field changed : Fields}
    (keys : Entries.keys objects = Entries.keys others)
    (extension : Entries.get? "extension" item = Entries.get? "extension" other)
    (same : Entries.SameBeside ["requirement"] field changed) :
    meant others other changed = meant objects item field := by
  have found (name : Value) (scope : Value) :
      Scope.find? others name (some scope) = Scope.find? objects name (some scope) :=
    (find?_congr keys name _).symm
  have scope : extensionOf changed other = extensionOf field item := by
    unfold extensionOf
    rw [Entries.orNull_congr (same "_source" (by decide)), same "extension" (by decide),
      Entries.orNull_congr extension]
  unfold meant
  rw [Entries.orNull_congr (same "object_type" (by decide)), scope]
  simp only [found]

def overFields (shared : Option Value) (field : Fields) : Fields :=
  match shared with
  | some shared => Value.mergeFields (Value.unsharedFields shared.inner) field
  | none => field

private theorem exists_overShared {shared : Option Value} (objects : ∀ inner ∈ shared, inner.isObject = true)
    (mark : Option Nat) (field : Fields) :
    ∃ own, overShared shared (.object mark field) = .object own (overFields shared field) := by
  cases shared with
  | none => exact ⟨mark, rfl⟩
  | some shared =>
      cases shared with
      | object own known =>
          refine ⟨none, ?_⟩
          rw [overShared, Value.unshared, Value.mergeInto, Value.merge_object, overFields, Value.inner]
      | null | bool _ | int _ | float _ | text _ | array _ => cases objects _ rfl

theorem finishAttribute_ok {draft : Draft} {item : Fields} {name : Text} {value result : Value}
    (dictionary : ∀ shared ∈ Entries.get? name draft.attributes, shared.isObject = true)
    (ran : draft.finishAttribute item name value = .ok result) :
    ∃ mark field own fields, value = .object mark field ∧ result = .object own fields ∧
      ((meant draft.objects item field = .ok none ∧
        fields = overFields (Entries.get? name draft.attributes) field) ∨
      ∃ key, meant draft.objects item field = .ok (some key) ∧
        refer draft.objects key (overFields (Entries.get? name draft.attributes) field) = .ok fields) := by
  rw [finishAttribute_eq] at ran
  obtain ⟨field, opened, ran⟩ := bind_eq_ok.mp ran
  obtain ⟨mark, rfl⟩ := Value.inner_of_asFields opened
  obtain ⟨own, merged⟩ := exists_overShared dictionary mark field
  rw [merged] at ran
  refine ⟨mark, field, ?_⟩
  unfold meant
  dsimp only at ran
  split at ran
  · rename_i given
    obtain ⟨scope, told, ran⟩ := bind_eq_ok.mp ran
    obtain ⟨found, searched, ran⟩ := bind_eq_ok.mp ran
    rw [if_pos given, told, ok_bind, searched]
    cases found with
    | none =>
        rw [← pure_eq_ok.mp ran]
        exact ⟨own, _, rfl, rfl, Or.inl ⟨rfl, rfl⟩⟩
    | some key =>
        obtain ⟨fields, opened, ran⟩ := bind_eq_ok.mp ran
        obtain ⟨referring, refers, ran⟩ := bind_eq_ok.mp ran
        rw [Value.asFields] at opened
        rw [Except.ok.inj opened, ← pure_eq_ok.mp ran]
        exact ⟨none, referring, rfl, rfl, Or.inr ⟨key, rfl, refers⟩⟩
  · rename_i missing
    rw [← pure_eq_ok.mp ran, if_neg missing]
    exact ⟨own, _, rfl, rfl, Or.inl ⟨rfl, rfl⟩⟩

theorem exists_meant {α : Type} {objects : Entries α} {item field : Fields} {key : Value}
    (found : meant objects item field = .ok (some key)) :
    ∃ name, key = .text name ∧ Entries.has name objects = true := by
  unfold meant at found
  split at found
  · obtain ⟨scope, _, found⟩ := bind_eq_ok.mp found
    obtain ⟨entry, _⟩ := Scope.findBy_ok found
    cases key with
    | text name =>
        refine ⟨name, rfl, ?_⟩
        obtain ⟨result, looked, present⟩ := bind_eq_ok.mp entry
        rw [Value.lookup?] at looked
        rw [← Except.ok.inj looked] at present
        exact pure_eq_ok.mp present
    | null | bool _ | int _ | float _ =>
        cases entry
    | array _ | object _ _ =>
        obtain ⟨result, looked, present⟩ := bind_eq_ok.mp entry
        rw [Value.lookup?] at looked
        split at looked
        · rw [← Except.ok.inj looked] at present
          cases pure_eq_ok.mp present
        · cases looked
        · cases looked
  · cases found

theorem refer_text {objects : Entries Fields} {key : Text} {field result : Fields}
    (ran : refer objects (.text key) field = .ok result) :
    result = Entries.put "object_name"
      (Entries.getOr "caption" ((Entries.get? key objects).getD []) (.text ∅))
      (Entries.put "object_type" (.text key) (Entries.put "type" (.text "object_t") field)) := by
  unfold refer at ran
  rw [Value.lookup?, ok_bind] at ran
  exact (pure_eq_ok.mp ran).symm

end Draft

namespace Value

private theorem get?_mergeFields_dest {key : Text} (source : List (Text × Value)) {one other : Fields}
    (same : Entries.get? key one = Entries.get? key other) :
    Entries.get? key (mergeFields one source) = Entries.get? key (mergeFields other source) := by
  induction source generalizing one other with
  | nil =>
      rw [mergeFields, mergeFields]
      exact same
  | cons head rest ih =>
      rw [mergeFields, mergeFields]
      apply ih
      rw [Entries.get?_put, Entries.get?_put]
      split
      · rename_i here
        rw [← here, same]
      · exact same

private theorem get?_mergeFields_put {key other : Text} (different : key ≠ other) (value : Value)
    (source : List (Text × Value)) (dest : Fields) :
    Entries.get? other (mergeFields dest (Entries.put key value source)) =
      Entries.get? other (mergeFields dest source) := by
  have unwritten (written : Value) (fields : Fields) :
      Entries.get? other (Entries.put key written fields) = Entries.get? other fields :=
    Entries.get?_put_of_ne different written fields
  induction source generalizing dest with
  | nil =>
      rw [Entries.put, mergeFields, mergeFields, mergeFields, unwritten]
  | cons head rest ih =>
      obtain ⟨name, old⟩ := head
      rw [Entries.put]
      split
      · rename_i here
        rw [mergeFields, mergeFields, here]
        exact get?_mergeFields_dest rest ((unwritten _ _).trans (unwritten _ _).symm)
      · rw [mergeFields, mergeFields]
        exact ih _

end Value

theorem Attribute.get?_ofValues_of_absent {attributes : Fields} {name : Text}
    (absent : Entries.get? name attributes = none) : Entries.get? name (ofValues attributes) = none := by
  cases found : Entries.get? name (ofValues attributes) with
  | none => rfl
  | some record =>
      obtain ⟨_, _, member, _⟩ := exists_of_mem_ofValues (Entries.mem_of_get? found)
      exact absurd (List.mem_map_of_mem member) (Entries.get?_eq_none_iff.mp absent)

/-! ### What a graph has of an attribute -/

def Dictionary.under (dictionary : Dictionary) (name : Text) (field : Fields) : Fields :=
  match Entries.get? name dictionary.attributes with
  | some shared => Value.mergeFields (Value.unsharedFields shared.toFields) field
  | none => field

def Dictionary.toldType (dictionary : Dictionary) (name : Text) (own : Value) : Value :=
  if own.truthy then own
  else match Entries.get? name dictionary.attributes with
    | some shared => shared.type
    | none => .null

structure Graph.Keeps (graph : Graph) (objects flat : Fields) (name : Text) (field : Fields)
    (record : Attribute) : Prop where
  merged : ∀ key ∉ (["requirement", "type", "object_type", "object_name"] : List Text),
    Entries.get? key record.toFields = Attribute.shown key (Entries.get? key (graph.dictionary.under name field))
  told : ∃ found, Draft.meant graph.objects flat field = .ok found
  plain : Draft.meant graph.objects flat field = .ok none →
    ∀ key ∈ (["type", "object_type", "object_name"] : List Text),
      Entries.get? key record.toFields = Attribute.shown key (Entries.get? key (graph.dictionary.under name field))
  referring : ∀ key, Draft.meant graph.objects flat field = .ok (some key) →
    record.type = .text "object_t" ∧ record.objectType = key ∧
      ∃ object target, key = .text object ∧ Lineage.Flat .object objects object target ∧
        record.objectName = Entries.getOr "caption" target (.text ∅)

namespace Stages

variable {d : Definitions} {graph : Graph} (stages : Stages d graph)

/-- The records of the dictionary are those of the attributes that items are finished over. -/
theorem dictionary_attributes : graph.dictionary.attributes = Attribute.ofValues stages.required.attributes := by
  obtain ⟨_, _, _, finished, _, _⟩ := Draft.finish_ok stages.finishing
  have same : stages.finished.attributes = stages.required.attributes := by rw [finished]
  rw [(Graph.of_draft stages.reading).1, same]

/-- What a record of the dictionary leaves out is null. -/
theorem shown_under (name key : Text) (field : Fields) :
    Attribute.shown key (Entries.get? key
        (Draft.overFields (Entries.get? name stages.required.attributes) field)) =
      Attribute.shown key (Entries.get? key (graph.dictionary.under name field)) := by
  have shared (value : Value) (known : Entries.get? name stages.required.attributes = some value) :=
    stages.isObject_dictionary known
  unfold Draft.overFields Dictionary.under
  rw [stages.dictionary_attributes]
  cases found : Entries.get? name stages.required.attributes with
  | none => rw [Attribute.get?_ofValues_of_absent found]
  | some value =>
      cases value with
      | object mark known =>
          rw [Attribute.get?_ofValues found]
          simp only [Value.inner]
          apply Attribute.shown_mergeFields
          rw [Value.get?_unsharedFields, Value.get?_unsharedFields, Attribute.get?_toFields,
            ← Attribute.shown_map Value.isNull_unshared, ← Attribute.shown_map Value.isNull_unshared,
            Attribute.shown_idem]
      | null | bool _ | int _ | float _ | text _ | array _ => cases shared _ found

/-- An attribute that comes through to the last stage is finished with all that it had. -/
theorem keeps {whole flat field : Fields} {name : Text} {mark : Option Nat} {result : Value}
    (extension : Entries.get? "extension" whole = Entries.get? "extension" flat)
    (ran : stages.required.finishAttribute whole name (Draft.orOptional (.object mark field)) = .ok result) :
    ∃ own fields, result = .object own fields ∧
      graph.Keeps stages.rawObjects flat name field (Attribute.ofFields name fields) := by
  obtain ⟨inner, filled, own, fields, shape, rfl, outcome⟩ := Draft.finishAttribute_ok
    (fun shared known => stages.isObject_dictionary known) ran
  -- the requirement alone is filled in
  have changed : filled = field ∨ filled = Entries.put "requirement" (.text "optional") field := by
    rw [Draft.orOptional] at shape
    split at shape
    · cases shape
      exact Or.inr rfl
    · cases shape
      exact Or.inl rfl
  have same : Entries.SameBeside ["requirement"] field filled := by
    rcases changed with rfl | rfl
    · exact .refl _ _
    · exact (Entries.SameBeside.refl _ _).put (by decide) _
  have merged {key : Text} (apart : key ≠ "requirement") :
      Attribute.shown key (Entries.get? key
          (Draft.overFields (Entries.get? name stages.required.attributes) filled)) =
        Attribute.shown key (Entries.get? key (graph.dictionary.under name field)) := by
    rw [← stages.shown_under]
    rcases changed with rfl | rfl
    · rfl
    · unfold Draft.overFields
      split
      · rw [Value.get?_mergeFields_put (Ne.symm apart)]
      · rw [Entries.get?_put_of_ne (Ne.symm apart)]
  have meaning : Draft.meant graph.objects flat field = Draft.meant stages.required.objects whole filled :=
    (Draft.meant_congr stages.keys_objects extension.symm same).symm
  refine ⟨own, fields, rfl, ?_⟩
  rcases outcome with ⟨nothing, rfl⟩ | ⟨key, found, refers⟩
  · rw [← meaning] at nothing
    exact {
      merged := by
        intro key apart
        rw [Attribute.get?_toFields, merged]
        rintro rfl
        exact apart (by decide)
      told := ⟨_, nothing⟩
      plain := by
        intro _ key listed
        rw [Attribute.get?_toFields, merged]
        rintro rfl
        exact absurd listed (by decide)
      referring := by
        intro key impossible
        rw [nothing] at impossible
        cases impossible }
  · obtain ⟨object, rfl, present⟩ := Draft.exists_meant found
    rw [← meaning] at found
    have written := Draft.refer_text refers
    obtain ⟨held, known⟩ := Option.isSome_iff_exists.mp present
    obtain ⟨target, shown, kept⟩ := stages.related_objects.get?_right known
    obtain ⟨_, _, computed⟩ := (Lineage.flattenAll_ok stages.flattenObjects).mem_right
      (List.mem_of_mem_filter (Entries.mem_of_get? shown))
    exact {
      merged := by
        intro key apart
        simp only [List.mem_cons, List.not_mem_nil, or_false, not_or] at apart
        rw [Attribute.get?_toFields, written, Entries.get?_put_of_ne (Ne.symm apart.2.2.2),
          Entries.get?_put_of_ne (Ne.symm apart.2.2.1), Entries.get?_put_of_ne (Ne.symm apart.2.1),
          merged apart.1]
      told := ⟨_, found⟩
      plain := by
        intro impossible
        rw [found] at impossible
        cases impossible
      referring := by
        intro key same
        rw [found] at same
        cases same
        refine ⟨?_, ?_, object, target, rfl, computed, ?_⟩
        · change Entries.orNull "type" fields = _
          rw [written, Entries.orNull_put_of_ne (by decide), Entries.orNull_put_of_ne (by decide),
            Entries.orNull_put_self]
        · change Entries.orNull "object_type" fields = _
          rw [written, Entries.orNull_put_of_ne (by decide), Entries.orNull_put_self]
        · change Entries.orNull "object_name" fields = _
          rw [written, Entries.orNull_put_self, known, Option.getD_some, Entries.getOr, Entries.getOr,
            kept "caption" (by decide)] }

end Stages

/-! ### The attributes of an item -/

/-- An entity has every attribute that its item was flattened to have, but for the written ones with all
that it had, and beside these only the written ones and the siblings of timestamps. -/
structure Graph.Carries (graph : Graph) (objects : Fields) (enabled : Bool) (written : List Text)
    (flat : Fields) (entity : Entity) : Prop where
  kept : ∀ name value, Entries.get? name (Entries.attributes flat) = some value → name ∉ written →
    ∃ mark field record, value = .object mark field ∧ Entries.get? name entity.attributes = some record ∧
      graph.Keeps objects flat name field record
  names : ∀ name, Entries.has name entity.attributes = true ↔
    (Entries.has name (Entries.attributes flat) = true ∨ name ∈ written) ∨
    enabled = true ∧ ∃ origin, (Entries.has origin (Entries.attributes flat) = true ∨ origin ∈ written) ∧
      name = Draft.datetimeName origin ∧
      graph.dictionary.toldType origin (Draft.ownType origin (Entries.attributes flat)) = .text "timestamp_t"

namespace Draft

theorem WrittenAt.has {names : List Text} {before after : Fields} (written : WrittenAt names before after)
    (name : Text) : Entries.has name after = true ↔ Entries.has name before = true ∨ name ∈ names := by
  by_cases member : name ∈ names
  · simp [written.present name member, member]
  · rw [Entries.has, written.beside name member, Entries.has]
    simp [member]

private theorem writtenAt_listing {attributes ids : Fields} (plain : Value.PlainFields attributes)
    (opened : (Entries.orEmpty "type_id" attributes).asFields = .ok ids) (enumeration : Value) :
    WrittenAt ["type_id"] attributes
      (Value.putShared "type_id" (.record (Entries.put "enum" enumeration ids)) attributes) := by
  have inner : (Entries.orEmpty "type_id" attributes).inner = ids := by
    obtain ⟨mark, shape⟩ := Value.inner_of_asFields opened
    rw [shape, Value.inner]
  have plainIds : Value.PlainFields ids := inner ▸ plain.inner_orEmpty "type_id"
  have renews := Value.renews_refresh (Value.isObject_of_mem_occurrences
    (.record (Entries.put "enum" enumeration ids)))
  have listed := Value.get?_refreshFields (Value.occurrences (.record (Entries.put "enum" enumeration ids)))
    "type_id" (Entries.put "type_id" (.record (Entries.put "enum" enumeration ids)) attributes)
  rw [Entries.get?_put_self, Option.map_some, renews.record] at listed
  have others (name : Text) (other : name ≠ "type_id") := Value.get?_putShared_of_ne (Ne.symm other)
    (.record (Entries.put "enum" enumeration ids)) plain
  refine ⟨fun name apart => others name (List.mem_singleton.not.mp apart), fun name member => ?_, fun name => ?_⟩
  · rw [List.mem_singleton.mp member, Value.putShared, Entries.has, listed]
    rfl
  · unfold ownType
    by_cases here : name = "type_id"
    · rw [here, inner, Value.putShared, Entries.orEmpty, Entries.getOr, listed, Option.getD_some,
        Value.inner_record, Entries.orNull, Entries.getOr, renews.found, Entries.get?_put_of_ne (by decide),
        Entries.orNull, Entries.getOr]
      cases typed : Entries.get? "type" ids with
      | none => rfl
      | some value => exact Value.refresh_of_plain _ _ (plainIds.of_get? typed)
    · rw [Entries.orEmpty, Entries.getOr, others name here]
      rfl

theorem isObject_of_orOptional {value : Value} {mark : Option Nat} {field : Fields}
    (shape : orOptional value = .object mark field) : value.isObject = true := by
  cases value with
  | object _ _ => rfl
  | null | bool _ | int _ | float _ | text _ | array _ => cases shape

end Draft

namespace Stages

variable {d : Definitions} {graph : Graph} (stages : Stages d graph)

theorem toldType_eq (name : Text) (own : Value) :
    Draft.toldType stages.closed name own = graph.dictionary.toldType name own := by
  unfold Draft.toldType Dictionary.toldType
  split
  · rfl
  · rw [stages.dictionary_attributes, ← stages.sameReferences.1]
    cases found : Entries.get? name stages.required.attributes with
    | none =>
        rw [Attribute.get?_ofValues_of_absent found, Entries.orEmpty, Entries.getOr, found]
        rfl
    | some value =>
        have shape := stages.isObject_dictionary found
        cases value with
        | object mark known =>
            rw [Attribute.get?_ofValues found, Entries.orEmpty, Entries.getOr, found]
            rfl
        | null | bool _ | int _ | float _ | text _ | array _ => cases shape

theorem carried {enabled : Bool} {kind : ItemKind} {key : Text} {flat item dated required result : Fields}
    {entity : Entity} {names : List Text}
    (distinct : Entries.Distinct (Entries.attributes item))
    (extension : Entries.get? "extension" item = Entries.get? "extension" flat)
    (written : Draft.WrittenAt names (Entries.attributes flat) (Entries.attributes item))
    (passes : Draft.Passes stages.closed stages.required enabled kind key item dated required result)
    (reads : Entity.ofFields key kind result = .ok entity) :
    graph.Carries stages.rawObjects enabled names flat entity := by
  obtain ⟨missing, requires⟩ := passes.requires
  obtain ⟨filled, requiredFrame⟩ := Draft.attributes_requireItem requires
  obtain ⟨finished, _⟩ := Draft.finishItem_ok passes.finishes
  rw [filled] at finished
  have attributes := (readsItem_of_ok reads).attributes
  have dictionary (name : Text) : ∀ shared ∈ Entries.get? name stages.required.attributes,
      shared.isObject = true := fun shared known => stages.isObject_dictionary known
  -- what is finished is an object, and so is what it was made of
  have results : ∀ entry ∈ Entries.attributes result, entry.2.isObject = true := by
    intro entry member
    obtain ⟨_, _, ran⟩ := finished.mem_right member
    obtain ⟨_, _, _, _, _, shape, _⟩ := Draft.finishAttribute_ok (dictionary _) ran
    rw [shape]
    rfl
  have origins : ∀ entry ∈ Entries.attributes dated, entry.2.isObject = true := by
    intro entry member
    obtain ⟨_, _, same, ran⟩ := exists_right_of_mem finished (List.mem_map_of_mem member)
    obtain ⟨_, _, _, _, shape, _⟩ := Draft.finishAttribute_ok (dictionary _) ran
    exact Draft.isObject_of_orOptional shape
  have kept (name : Text) (value : Value) (found : Entries.get? name (Entries.attributes item) = some value) :
      Entries.get? name (Entries.attributes dated) = some value := by
    rcases passes.dates with ⟨_, rfl⟩ | ⟨_, dates⟩
    · exact found
    · obtain ⟨siblings, collected, shape, _, _⟩ := Draft.addSiblings_ok dates
      rw [shape]
      exact Draft.get?_addSiblings collected found
  have owner : Entries.get? "extension" required = Entries.get? "extension" flat := by
    rw [requiredFrame "extension" (by decide), ← extension]
    rcases passes.dates with ⟨_, rfl⟩ | ⟨_, dates⟩
    · rfl
    · obtain ⟨_, _, _, _, frame⟩ := Draft.addSiblings_ok dates
      exact frame "extension" (by decide) (by decide)
  constructor
  · intro name value found unwritten
    have held := kept name value ((written.beside name unwritten).trans found)
    have treated := Entries.get?_mapValues Draft.orOptional name (Entries.attributes dated)
    rw [held, Option.map_some] at treated
    obtain ⟨last, known, ran⟩ := finished.get?_left treated
    have shape := origins _ (Entries.mem_of_get? held)
    cases value with
    | object mark field =>
        obtain ⟨own, fields, rfl, keeps⟩ := stages.keeps owner ran
        refine ⟨mark, field, _, rfl, ?_, keeps⟩
        rw [attributes]
        exact Attribute.get?_ofValues known
    | null | bool _ | int _ | float _ | text _ | array _ => cases shape
  · intro name
    have keys : Entries.keys entity.attributes = Entries.keys (Entries.attributes dated) := by
      rw [attributes, (names_ofValues results).1, finished.keys_eq, Entries.keys_mapValues]
    rw [Entries.has_iff_mem_keys, keys, ← Entries.has_iff_mem_keys, ← written.has]
    rcases passes.dates with ⟨disabled, rfl⟩ | ⟨enables, dates⟩
    · simp [disabled]
    · obtain ⟨siblings, collected, shape, _, _⟩ := Draft.addSiblings_ok dates
      have objects : ∀ entry ∈ Entries.attributes item, entry.2.isObject = true := by
        intro entry member
        exact origins _ (Entries.mem_of_get? (kept _ _ (Entries.get?_of_mem distinct member)))
      rw [shape, Draft.has_addSiblings objects collected]
      refine or_congr Iff.rfl ⟨?_, ?_⟩
      · rintro ⟨origin, value, member, same, told⟩
        have found := Entries.get?_of_mem distinct member
        refine ⟨enables, origin, (written.has origin).mp ?_, same, ?_⟩
        · exact Entries.has_iff_mem_keys.mpr (Entries.mem_keys_of_get? found)
        · rw [← written.types, Draft.ownType, Entries.orEmpty, Entries.getOr, found, Option.getD_some,
            ← stages.toldType_eq]
          exact told
      · rintro ⟨_, origin, present, same, told⟩
        obtain ⟨value, found⟩ := Option.isSome_iff_exists.mp ((written.has origin).mpr present)
        refine ⟨origin, value, Entries.mem_of_get? found, same, ?_⟩
        rw [← written.types, Draft.ownType, Entries.orEmpty, Entries.getOr, found, Option.getD_some,
          ← stages.toldType_eq] at told
        exact told

/-! ### Items whose profiles are closed -/

theorem written_class {key : Text} {item : Fields} (keyed : KeyedDocument stages.rawClasses)
    (found : Entries.get? key stages.closed.classes = some item) :
    ∃ flat category, Lineage.Flat .eventClass stages.rawClasses key flat ∧
      stages.start.categoryOf flat = .ok category ∧ Entries.Distinct (Entries.attributes item) ∧
      Entries.get? "extension" item = Entries.get? "extension" flat ∧
      Draft.WrittenAt (Draft.identifyingNames category) (Entries.attributes flat) (Entries.attributes item) := by
  obtain ⟨flat, identified, computed, identifying, attributes, frame⟩ := stages.identified_class found
  obtain ⟨category, told, written⟩ := Draft.identify_writtenAt identifying
  obtain ⟨retouched, kept⟩ := Draft.identify_ok identifying
  have distinct : Entries.Distinct (Entries.attributes flat) :=
    (Lineage.hereditary_distinct fun key mark item found =>
      keyed.names key mark item (Entries.mem_of_get? found)).flat computed
  obtain ⟨_, resolved⟩ := Draft.resolveDictionary_ok stages.resolving
  have categories : stages.resolved.categories = stages.start.categories := by
    rw [resolved]
    rfl
  unfold Draft.categoryOf at told
  rw [categories] at told
  refine ⟨flat, category, computed, told, ?_, ?_, attributes ▸ written⟩
  · rw [attributes]
    exact retouched.distinct distinct
  · exact (frame "extension" (by decide)).trans (kept "extension" (by decide))

theorem written_object {key : Text} {item : Fields} (keyed : KeyedDocument stages.rawObjects)
    (plain : d.objects.Plain) (found : Entries.get? key stages.closed.objects = some item) :
    ∃ flat, Lineage.Flat .object stages.rawObjects key flat ∧ Entries.Distinct (Entries.attributes item) ∧
      Entries.get? "extension" item = Entries.get? "extension" flat ∧
      Draft.WrittenAt (withListing key []) (Entries.attributes flat) (Entries.attributes item) := by
  have unshared (flat : Fields) (computed : Lineage.Flat .object stages.rawObjects key flat) :
      Value.Unshared (Entries.attributes flat) := by
    obtain ⟨item, above, ancestry, inherited⟩ := computed
    refine Lineage.unshared_of_inherit (fun entry member => ?_) inherited
    obtain ⟨mark, held⟩ := ancestry.object_of_mem member
    have whole : Value.PlainFields stages.rawObjects := by
      obtain ⟨own, same⟩ := Value.inner_of_asFields stages.readObjects
      rw [same] at plain
      exact (Value.plain_object.mp plain).2
    obtain ⟨_, inside⟩ := Value.plain_object.mp (whole.of_get? held)
    exact ⟨inside.attributes, keyed.names _ _ _ (Entries.mem_of_get? held)⟩
  obtain ⟨other, shown, kept⟩ := stages.related_closed.get?_right found
  obtain ⟨_, _, computed⟩ := (Lineage.flattenAll_ok stages.flattenObjects).mem_right
    (List.mem_of_mem_filter (Entries.mem_of_get? shown))
  obtain ⟨flat, computed', ⟨apart, same⟩ | ⟨rfl, ids, enumeration, opened, _, same⟩⟩ := stages.closed_object found
  · obtain rfl : flat = other := computed'.unique computed
    rw [withListing, if_neg apart, same]
    exact ⟨flat, computed, (unshared flat computed).distinct, kept "extension" (by decide), .none _⟩
  · obtain rfl : flat = other := computed'.unique computed
    obtain ⟨inside, distinct⟩ := unshared flat computed
    rw [withListing, if_pos rfl, same]
    refine ⟨flat, computed, ?_, kept "extension" (by decide), Draft.writtenAt_listing inside opened _⟩
    rw [Entries.Distinct, Value.putShared, Value.keys_refreshFields]
    exact distinct.put _ _

end Stages

/-- The graph has everything of a flattened item. Every attribute is there, over that of the dictionary
and with the object that it means, but for those that a class is identified by and the list of
observables; and beside these there are only siblings of timestamps. -/
theorem Graph.carries {d : Definitions} {graph : Graph}
    (classes : ∀ items, d.classes.asFields = .ok items → KeyedDocument items)
    (objects : ∀ items, d.objects.asFields = .ok items → KeyedDocument items)
    (plain : d.objects.Plain) (built : (Graph.ofDefinitions d).Yields graph) :
    ∃ start enabled, Draft.ofDefinitions d = .ok start ∧ start.datetimeEnabled = .ok enabled ∧
      (∀ key entity, Entries.get? key graph.classes = some entity →
        ∃ flat category, Lineage.Flat .eventClass d.classes.inner key flat ∧
          start.categoryOf flat = .ok category ∧
          graph.Carries d.objects.inner enabled (Draft.identifyingNames category) flat entity) ∧
      ∀ key entity, Entries.get? key graph.objects = some entity →
        ∃ flat, Lineage.Flat .object d.objects.inner key flat ∧
          graph.Carries d.objects.inner enabled (withListing key []) flat entity := by
  obtain ⟨stages⟩ := exists_stages built
  obtain ⟨_, readClasses, readObjects⟩ := Draft.graph_ok stages.reading
  obtain ⟨enabled, asked, eachClass, eachObject⟩ := stages.passes
  have raw {value : Value} {fields : Fields} (opened : value.asFields = .ok fields) : value.inner = fields := by
    obtain ⟨mark, same⟩ := Value.inner_of_asFields opened
    rw [same, Value.inner]
  rw [raw stages.readClasses, raw stages.readObjects]
  refine ⟨stages.start, enabled, stages.starting, stages.datetimeEnabled_closed ▸ asked, ?_, ?_⟩
  · intro key entity found
    obtain ⟨result, known, reads⟩ := readClasses.get?_right found
    obtain ⟨item, held, dated, required, passes⟩ := eachClass.get?_right known
    obtain ⟨flat, category, computed, told, distinct, extension, written⟩ :=
      stages.written_class (classes _ stages.readClasses) held
    exact ⟨flat, category, computed, told, stages.carried distinct extension written passes reads⟩
  · intro key entity found
    obtain ⟨result, known, reads⟩ := readObjects.get?_right found
    obtain ⟨item, held, dated, required, passes⟩ := eachObject.get?_right known
    obtain ⟨flat, computed, distinct, extension, written⟩ :=
      stages.written_object (objects _ stages.readObjects) plain held
    exact ⟨flat, computed, stages.carried distinct extension written passes reads⟩

namespace Graph

/-- The attribute of a class that overrides one of the dictionary and refers to an object. -/
def ownerField : Fields :=
  [("requirement", .text "required"), ("caption", .text "Owner of the file"), ("object_type", .text "user")]

def ownerFlat : Fields := Entries.put "_source" (.text "base_event") ownerField

def classFlat : Fields :=
  [("attributes", .record [("owner", .record ownerFlat),
    ("seen", .record [("requirement", .text "optional"), ("_source", .text "base_event")])])]

/-- A class with that attribute and a timestamp. -/
def overriding : Definitions where
  version := .text "1.0.0"
  categories := .record []
  dictionary := .record [
    ("attributes", .record [
      ("owner", .record [("type", .text "string_t"), ("caption", .text "Owner"),
        ("description", .text "Who has it.")]),
      ("seen", .record [("type", .text "timestamp_t")])]),
    ("types", .record [("attributes", .record [
      ("string_t", .record []), ("timestamp_t", .record []), ("datetime_t", .record [])])])]
  classes := .record [("base_event", .record [
    ("attributes", .record [("owner", .record ownerField), ("seen", plainAttribute)])])]
  objects := .record [("user", .record [("caption", .text "User")])]
  profiles := .record [("datetime", .record [])]
  extensions := []

/-- The class has the attribute as it is there, with the description of the dictionary and the caption of the
object, and a sibling of the timestamp. -/
theorem carries_overriding : ∃ graph entity record, (Graph.ofDefinitions overriding).Yields graph ∧
    Entries.get? "base_event" graph.classes = some entity ∧
    Entries.get? "owner" entity.attributes = some record ∧
    Entries.get? "caption" record.toFields = some (.text "Owner of the file") ∧
    Entries.get? "description" record.toFields = some (.text "Who has it.") ∧
    record.objectType = .text "user" ∧ record.objectName = .text "User" ∧
    Entries.has "seen_dt" entity.attributes = true := by
  have evaluated : ((Graph.ofDefinitions overriding).outcome {}).1.toOption.map (fun graph =>
      ((Entries.get? "base_event" graph.classes).isSome,
        Entries.get? "caption" (graph.dictionary.under "owner" ownerFlat),
        Entries.get? "description" (graph.dictionary.under "owner" ownerFlat),
        (Draft.meant graph.objects classFlat ownerFlat).toOption, graph.dictionary.toldType "seen" .null)) =
      some (true, some (.text "Owner of the file"), some (.text "Who has it."), some (some (.text "user")),
        .text "timestamp_t") := by
    decide +kernel
  obtain ⟨graph, built, shown⟩ := Act.exists_of_outcome evaluated
  obtain ⟨present, shown⟩ := Prod.mk.inj shown
  obtain ⟨caption, shown⟩ := Prod.mk.inj shown
  obtain ⟨description, shown⟩ := Prod.mk.inj shown
  obtain ⟨meant, timestamp⟩ := Prod.mk.inj shown
  obtain ⟨entity, found⟩ := Option.isSome_iff_exists.mp present
  have classes : ∀ items, overriding.classes.asFields = .ok items → KeyedDocument items := by
    rintro items ⟨⟩
    exact KeyedDocument.singleton (by decide)
  have objects : ∀ items, overriding.objects.asFields = .ok items → KeyedDocument items := by
    rintro items ⟨⟩
    exact KeyedDocument.singleton (by decide)
  obtain ⟨start, enabled, starting, asked, ofClasses, _⟩ := carries classes objects rfl built
  obtain ⟨flat, category, computed, _, carried⟩ := ofClasses _ _ found
  obtain rfl : flat = classFlat := computed.unique ⟨_, [], .root rfl (Or.inr rfl), rfl⟩
  obtain ⟨_, _, record, same, held, keeps⟩ := carried.kept "owner" (.record ownerFlat) rfl (by
    unfold Draft.identifyingNames
    split <;> decide)
  cases same
  obtain ⟨_, type, object, target, named, flattened, told⟩ := keeps.referring _ (toOption_eq_some.mp meant)
  cases named
  obtain rfl : target = ([("caption", .text "User"), ("attributes", .record [])] : Fields) :=
    flattened.unique ⟨_, [], .root rfl (Or.inr rfl), rfl⟩
  refine ⟨graph, entity, record, built, found, held, ?_, ?_, type, told, ?_⟩
  · rw [keeps.merged "caption" (by decide), caption]
    rfl
  · rw [keeps.merged "description" (by decide), description]
    rfl
  · have enables : enabled = true := by
      have decided : (Draft.ofDefinitions overriding >>= Draft.datetimeEnabled).toOption = some true := by
        decide +kernel
      rw [starting, ok_bind, asked] at decided
      exact Option.some.inj decided
    exact (carried.names "seen_dt").mpr (Or.inr ⟨enables, "seen", Or.inl rfl, rfl, timestamp⟩)

end Graph

end EventSchema
