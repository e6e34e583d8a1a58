import EventSchema.Proofs.Draft.Without
import EventSchema.Proofs.Graph.Attributes
import EventSchema.Proofs.Graph.Provenance

/-!
Which object an attribute of a graph refers to.

A plain object type is looked up in the scope of the item that introduced the attribute, and among the
objects of the base schema otherwise. No stage of a build writes the source or the object type of an
attribute before that, so both are what the line of the item says.
-/

set_option autoImplicit false

namespace EventSchema

/-! ### Looking up a plain name -/

namespace Scope

private theorem hasSlash_within (scope name : Text) : (within scope name).hasSlash = true := by
  rw [Text.hasSlash_iff, within, Text.codes_append, Text.codes_append, Text.codes_slash]
  simp

private theorem within_left_inj {scope other name : Text} (same : within scope name = within other name) :
    scope = other := by
  have codes := congrArg Text.codes same
  simp only [within, Text.codes_append, List.append_left_inj] at codes
  cases scope
  cases other
  exact congrArg Text.mk codes

theorem within_right_inj {scope name other : Text} (same : within scope name = within scope other) :
    name = other := by
  have codes := congrArg Text.codes same
  simp only [within, Text.codes_append, List.append_right_inj] at codes
  cases name
  cases other
  exact congrArg Text.mk codes

theorem within_scope_inj {scope other name own : Text} (plain : scope.hasSlash = false)
    (apart : other.hasSlash = false) (same : within scope name = within other own) : scope = other := by
  by_contra different
  have owned := owns_within_self scope name
  rw [same, owns_within plain, owns_of_ne apart (Ne.symm different)] at owned
  cases owned

/-- A plain name means the object of the asking scope, if there is one. -/
theorem find?_plain {α : Type} (entries : Entries α) {name : Text} (given : (Value.text name).truthy = true)
    (plain : name.hasSlash = false) (scope : Value) :
    find? entries (.text name) (some scope) =
      .ok (if scope.truthy ∧ Entries.has (within scope.shown name) entries then
          some (.text (within scope.shown name))
        else if Entries.has name entries then some (.text name) else none) := by
  have slashed : (Value.text "/").member (.text name) = .ok false := by
    rw [Value.member, Text.contains_slash, plain]
  have present (key : Text) : (Value.text key).isEntry entries = .ok (Entries.has key entries) := rfl
  have direct : (do if ← (Value.text name).isEntry entries then return some (Value.text name) else return none :
      Except Fault (Option Value)) =
        .ok (if Entries.has name entries then some (.text name) else none) := by
    rw [present, ok_bind]
    split <;> rfl
  unfold find? findBy
  rw [given, if_neg (by decide)]
  dsimp only
  by_cases asked : scope.truthy = true
  · have itself : (Value.text name).shown = name := rfl
    rw [if_pos asked, slashed, ok_bind, if_pos (by decide), itself, present, ok_bind]
    by_cases own : Entries.has (within scope.shown name) entries = true
    · rw [if_pos own, if_pos ⟨asked, own⟩]
      rfl
    · rw [if_neg own, if_neg (not_and_of_not_right _ own)]
      exact direct
  · rw [if_neg asked, if_neg (not_and_of_not_left _ asked)]
    exact direct

end Scope

namespace Draft

/-- An attribute that names an item as its source and an object type. -/
def TypedAs (source type : Text) (found : Option Value) : Prop :=
  ∃ field, found = some (.record field) ∧ Entries.Distinct field ∧
    Entries.get? "_source" field = some (.text source) ∧
    Entries.get? "object_type" field = some (.text type)

/-- The scope of an item, none if it belongs to the base schema. -/
def scopeOf (source : Text) : Value := if source.hasSlash then .text source.beforeSlash else .null

theorem extensionOf_eq {field : Fields} {source : Text} (item : Fields)
    (named : Entries.get? "_source" field = some (.text source))
    (given : (Value.text source).truthy = true) : extensionOf field item = .ok (scopeOf source) := by
  have told : Entries.orNull "_source" field = .text source := by
    rw [Entries.orNull, Entries.getOr, named, Option.getD_some]
  unfold extensionOf scopeOf
  dsimp only
  rw [told, if_pos given, Value.member, Text.contains_slash, ok_bind]
  cases source.hasSlash <;> rfl

def overShared (shared : Option Value) (value : Value) : Value :=
  match shared with
  | some shared => Value.mergeInto shared.unshared value
  | none => value

theorem finishAttribute_eq (draft : Draft) (item : Fields) (name : Text) (value : Value) :
    draft.finishAttribute item name value = (do
      let field ← value.asFields
      let type := Entries.orNull "object_type" field
      if type.truthy then
        let scope ← extensionOf field item
        match ← Scope.find? draft.objects type (some scope) with
        | some key => return .record (← refer draft.objects key
            (← (overShared (Entries.get? name draft.attributes) value).asFields))
        | none => return overShared (Entries.get? name draft.attributes) value
      else return overShared (Entries.get? name draft.attributes) value) := rfl

/-- An attribute over that of the dictionary keeps its source and its object type. -/
theorem typed_overShared {shared : Option Value} {source type : Text} {value : Value}
    (objects : ∀ inner ∈ shared, inner.isObject = true) (typed : TypedAs source type (some value)) :
    ∃ fields, overShared shared value = .record fields ∧
      Entries.get? "_source" fields = some (.text source) ∧
      Entries.get? "object_type" fields = some (.text type) := by
  obtain ⟨field, same, distinct, named, told⟩ := typed
  cases same
  cases shared with
  | none => exact ⟨field, rfl, named, told⟩
  | some shared =>
      cases shared with
      | object mark known =>
          have written {key text : Text} (given : Entries.get? key field = some (.text text)) :
              Entries.get? key (Value.mergeFields (Value.unsharedFields known) field) =
                some (.text text) := by
            rw [Value.get?_mergeFields _ _ distinct, given]
            cases Entries.get? key (Value.unsharedFields known) with
            | none => rfl
            | some before => exact congrArg some (Value.merge_apart (Or.inr rfl))
          refine ⟨_, ?_, written named, written told⟩
          rw [overShared, Value.unshared, Value.record, Value.mergeInto, Value.merge_object, Value.record]
      | null | bool _ | int _ | float _ | text _ | array _ => cases objects _ rfl

/-- A finished attribute has the source that it had. It refers to the object that its object type means in
the scope of that source, and keeps the type if there is none. -/
theorem finishAttribute_typed {draft : Draft} {whole : Fields} {name source type : Text}
    {value finished : Value}
    (dictionary : ∀ shared ∈ Entries.get? name draft.attributes, shared.isObject = true)
    (typed : TypedAs source type (some value)) (introduced : (Value.text source).truthy = true)
    (given : (Value.text type).truthy = true) (plain : type.hasSlash = false)
    (ran : draft.finishAttribute whole name value = .ok finished) :
    ∃ fields, finished = .record fields ∧ Entries.get? "_source" fields = some (.text source) ∧
      if (scopeOf source).truthy ∧ Entries.has (Scope.within (scopeOf source).shown type) draft.objects then
        Entries.get? "type" fields = some (.text "object_t") ∧
          Entries.get? "object_type" fields = some (.text (Scope.within (scopeOf source).shown type))
      else Entries.get? "object_type" fields = some (.text type) := by
  obtain ⟨merged, shape, mergedSource, mergedType⟩ := typed_overShared dictionary typed
  obtain ⟨field, same, _, named, told⟩ := typed
  cases same
  have type? : Entries.orNull "object_type" field = .text type := by
    rw [Entries.orNull, Entries.getOr, told, Option.getD_some]
  rw [finishAttribute_eq, shape] at ran
  simp only [Value.record, Value.asFields, ok_bind] at ran
  rw [type?, if_pos given, extensionOf_eq whole named introduced, ok_bind,
    Scope.find?_plain draft.objects given plain, ok_bind] at ran
  have referred {key : Value} (ran : (do
      let fields ← refer draft.objects key merged
      return (Value.record fields) : Except Fault Value) = .ok finished) :
      ∃ fields, finished = .record fields ∧ Entries.get? "_source" fields = some (.text source) ∧
        Entries.get? "type" fields = some (.text "object_t") ∧
        Entries.get? "object_type" fields = some key := by
    obtain ⟨fields, wrote, ran⟩ := bind_eq_ok.mp ran
    obtain ⟨object, _, wrote⟩ := bind_eq_ok.mp wrote
    refine ⟨fields, (pure_eq_ok.mp ran).symm, ?_⟩
    rw [← pure_eq_ok.mp wrote]
    refine ⟨?_, ?_, ?_⟩
    · rw [Entries.get?_put_of_ne (by decide), Entries.get?_put_of_ne (by decide),
        Entries.get?_put_of_ne (by decide), mergedSource]
    · rw [Entries.get?_put_of_ne (by decide), Entries.get?_put_of_ne (by decide), Entries.get?_put_self]
    · rw [Entries.get?_put_of_ne (by decide), Entries.get?_put_self]
  split at ran
  · rename_i key found
    obtain ⟨fields, same, source?, type?, object?⟩ := referred ran
    refine ⟨fields, same, source?, ?_⟩
    split at found
    · rename_i own
      rw [if_pos own, object?, ← Option.some.inj found]
      exact ⟨type?, rfl⟩
    · rename_i foreign
      rw [if_neg foreign, object?]
      split at found
      · rw [← Option.some.inj found]
      · cases found
  · rename_i missing
    refine ⟨merged, (pure_eq_ok.mp ran).symm, mergedSource, ?_⟩
    split at missing
    · cases missing
    · rename_i foreign
      rw [if_neg foreign, mergedType]

/-! ### From a flattened item to the end of a build -/

theorem TypedAs.put {source type key : Text} {field : Fields}
    (typed : TypedAs source type (some (.record field))) (apart : key ≠ "_source")
    (other : key ≠ "object_type") (value : Value) :
    TypedAs source type (some (.record (Entries.put key value field))) := by
  obtain ⟨_, same, distinct, named, told⟩ := typed
  cases same
  refine ⟨_, rfl, distinct.put _ _, ?_, ?_⟩
  · rw [Entries.get?_put_of_ne apart, named]
  · rw [Entries.get?_put_of_ne other, told]

theorem TypedAs.filledIn {source type : Text} {value filled : Value}
    (typed : TypedAs source type (some value)) (same : FilledIn value filled) :
    TypedAs source type (some filled) := by
  rcases same with rfl | ⟨mark, field, rfl, rfl⟩
  · exact typed
  · obtain ⟨_, shape, told⟩ := typed
    cases shape
    exact TypedAs.put ⟨field, rfl, told⟩ (by decide) (by decide) _

/-- Identifying a class writes no source where there is one, and no object type. -/
theorem Retouched.typed {own source type name : Text} {before after : Fields}
    (retouched : Retouched own before after) (typed : TypedAs source type (Entries.get? name before)) :
    TypedAs source type (Entries.get? name after) := by
  induction retouched with
  | same => exact typed
  | @field after key changed value other _ written wrote ih =>
      rw [Entries.get?_put]
      by_cases same : name = other
      · obtain ⟨field, found, told⟩ := ih
        have before : TypedAs source type (some (.record field)) := ⟨field, rfl, told⟩
        rw [if_pos same]
        rw [Entries.orEmpty, Entries.getOr, ← same, found, Option.getD_some] at wrote
        cases wrote
        rcases written with rfl | rfl
        · exact before.put (by decide) (by decide) value
        · exact before.put (by decide) (by decide) value
      · rw [if_neg same]
        exact ih
  | @source after other _ ih =>
      unfold setSource
      split
      · rename_i mark held found
        rw [Entries.get?_put]
        by_cases same : name = other
        · obtain ⟨field, known, distinct, named, told⟩ := ih
          have present : Entries.has "_source" field = true := by rw [Entries.has, named]; rfl
          rw [same, found] at known
          cases known
          rw [if_pos same, Entries.putNew, if_pos present]
          exact ⟨_, rfl, distinct, named, told⟩
        · rw [if_neg same]
          exact ih
      · exact ih

/-- Writing an attribute anew leaves every other one its source and object type. -/
theorem typed_putShared {source type name other : Text} {value : Value} {attributes : Fields}
    (typed : TypedAs source type (Entries.get? name attributes))
    (own : name = other → TypedAs source type (some value)) :
    TypedAs source type (Entries.get? name (Value.putShared other value attributes)) := by
  have renews := Value.renews_refresh (Value.isObject_of_mem_occurrences value)
  have renewed {found : Option Value} (typed : TypedAs source type found) :
      TypedAs source type (found.map (Value.refresh (Value.occurrences value))) := by
    obtain ⟨field, rfl, distinct, named, told⟩ := typed
    refine ⟨_, congrArg some (renews.record field), renews.distinct distinct, ?_, ?_⟩
    · rw [renews.found, named, Option.map_some, renews.leaf _ rfl]
    · rw [renews.found, told, Option.map_some, renews.leaf _ rfl]
  rw [Value.putShared, Value.get?_refreshFields, Entries.get?_put]
  split
  · exact renewed (own ‹_›)
  · exact renewed typed

end Draft

/-! ### Attributes of a graph -/

private theorem Lineage.typedAs_of_inherit {kind : ItemKind} {items : Fields} (authored : AuthoredDocument items)
    {line : List (Text × Fields)} {flat : Fields} (ancestry : Ancestry items line)
    (inherited : inherit kind line = .ok flat) {name source type : Text}
    (introduced : introducedAlong name line = some source)
    (given : objectTypeAlong name line = some (.text type)) :
    Draft.TypedAs source type (Entries.get? name (Entries.attributes flat)) := by
  have tells := tells_of_inherit authored ancestry inherited name
  unfold introducedAlong at introduced
  unfold objectTypeAlong at given
  cases declared : declarations (mentions name line) with
  | nil =>
      rw [declared] at introduced
      cases introduced
  | cons first later =>
      rw [declared] at tells introduced given
      cases introduced
      obtain ⟨field, found, distinct, named, told⟩ := tells
      exact ⟨field, found, distinct, named, told type given⟩

theorem Attribute.get?_ofValues {attributes : Fields} {name : Text} {mark : Option Nat} {field : Fields}
    (found : Entries.get? name attributes = some (.object mark field)) :
    Entries.get? name (ofValues attributes) = some (ofFields name field) := by
  induction attributes with
  | nil => cases found
  | cons head rest ih =>
      obtain ⟨other, value⟩ := head
      rw [Entries.get?_cons] at found
      by_cases same : other = name
      · rw [if_pos same, Option.some.injEq] at found
        dsimp only at found
        rw [found, ofValues_cons, Entries.get?_cons, if_pos same, same]
      · rw [if_neg same] at found
        cases value with
        | object own inner =>
            rw [ofValues_cons, Entries.get?_cons, if_neg same]
            exact ih found
        | null | bool _ | int _ | float _ | text _ | array _ => exact ih found

structure Attribute.Means (objects : Entries Entity) (source type : Text) (record : Attribute) : Prop where
  introduced : record.source = .text source
  refers : if (Draft.scopeOf source).truthy ∧
      Entries.has (Scope.within (Draft.scopeOf source).shown type) objects then
    record.type = .text "object_t" ∧
      record.objectType = .text (Scope.within (Draft.scopeOf source).shown type)
  else record.objectType = .text type

theorem Attribute.Means.iff {objects : Entries Entity} {source type scope : Text} {record : Attribute}
    (means : record.Means objects source type) (plain : type.hasSlash = false)
    (asked : (Value.text scope).truthy = true)
    (present : Entries.has (Scope.within scope type) objects = true) :
    (record.type = .text "object_t" ∧ record.objectType = .text (Scope.within scope type)) ↔
      source.hasSlash = true ∧ source.beforeSlash = scope := by
  have refers := means.refers
  constructor
  · rintro ⟨_, object⟩
    split at refers
    · rename_i own
      rw [object] at refers
      have same := Value.text.inj refers.2
      unfold Draft.scopeOf at own same
      split at own
      · rename_i slashed
        rw [if_pos slashed] at same
        exact ⟨slashed, Scope.within_left_inj same.symm⟩
      · cases own.1
    · rw [object] at refers
      rw [← Value.text.inj refers, Scope.hasSlash_within] at plain
      cases plain
  · rintro ⟨slashed, rfl⟩
    have scope : Draft.scopeOf source = .text source.beforeSlash := if_pos slashed
    rw [scope] at refers
    rw [if_pos ⟨asked, present⟩] at refers
    exact refers

namespace Stages

variable {d : Definitions} {graph : Graph} (stages : Stages d graph)

theorem keys_objects : Entries.keys graph.objects = Entries.keys stages.required.objects := by
  obtain ⟨_, _, _, finished, _, finishes⟩ := Draft.finish_ok stages.finishing
  have same : stages.finished.objects = _ := congrArg Draft.objects finished
  rw [(Draft.graph_ok stages.reading).2.2.keys_eq, same, finishes.keys_eq]

/-- An attribute that has a source and an object type when the profiles are closed refers to what the type
means. -/
theorem means_of_completed {enabled : Bool} {item result : Fields}
    (completed : Draft.Completed stages.required enabled item result) {name source type : Text}
    (typed : Draft.TypedAs source type (Entries.get? name (Entries.attributes item)))
    (introduced : (Value.text source).truthy = true) (given : (Value.text type).truthy = true)
    (plain : type.hasSlash = false) :
    ∃ record, Entries.get? name (Attribute.ofValues (Entries.attributes result)) = some record ∧
      record.Means graph.objects source type := by
  obtain ⟨value, found, told⟩ := typed
  obtain ⟨filled, whole, finished, filling, _, ran, known⟩ := completed.kept name _ found
  have typed : Draft.TypedAs source type (some filled) :=
    Draft.TypedAs.filledIn ⟨value, rfl, told⟩ filling
  obtain ⟨fields, rfl, named, refers⟩ := Draft.finishAttribute_typed
    (fun shared known => stages.isObject_dictionary known) typed introduced given plain ran
  have present (key : Text) : Entries.has key stages.required.objects = Entries.has key graph.objects := by
    rw [Bool.eq_iff_iff, Entries.has_iff_mem_keys, Entries.has_iff_mem_keys, stages.keys_objects]
  have read {key : Text} {value : Value} (found : Entries.get? key fields = some value) :
      Entries.orNull key fields = value := by
    rw [Entries.orNull, Entries.getOr, found, Option.getD_some]
  refine ⟨_, Attribute.get?_ofValues known, read named, ?_⟩
  rw [present] at refers
  split at refers
  · rename_i own
    rw [if_pos own]
    exact ⟨read refers.1, read refers.2⟩
  · rename_i foreign
    rw [if_neg foreign]
    exact read refers

end Stages

inductive Graph.Lined (d : Definitions) (graph : Graph) : List (Text × Fields) → Entity → Prop where
  | eventClass {items item : Fields} {key : Text} {above : List (Text × Fields)} {entity : Entity}
      (listed : d.classes.asFields = .ok items) (ancestry : Lineage.Ancestry items ((key, item) :: above))
      (found : Entries.get? key graph.classes = some entity) : Lined d graph ((key, item) :: above) entity
  | object {items item : Fields} {key : Text} {above : List (Text × Fields)} {entity : Entity}
      (listed : d.objects.asFields = .ok items) (ancestry : Lineage.Ancestry items ((key, item) :: above))
      (found : Entries.get? key graph.objects = some entity) : Lined d graph ((key, item) :: above) entity

theorem Graph.means_of_lined {d : Definitions} {graph : Graph}
    (classes : ∀ items, d.classes.asFields = .ok items → AuthoredDocument items)
    (objects : ∀ items, d.objects.asFields = .ok items → AuthoredDocument items)
    (built : (Graph.ofDefinitions d).Yields graph) {line : List (Text × Fields)} {entity : Entity}
    (lined : graph.Lined d line entity) {name source type : Text}
    (introduced : Lineage.introducedAlong name line = some source)
    (last : Lineage.objectTypeAlong name line = some (.text type))
    (given : (Value.text type).truthy = true) (plain : type.hasSlash = false) :
    ∃ record, Entries.get? name entity.attributes = some record ∧ record.Means graph.objects source type := by
  obtain ⟨stages⟩ := exists_stages built
  obtain ⟨enabled, _, eachClass, eachObject⟩ := stages.completed
  obtain ⟨_, readClasses, readObjects⟩ := Draft.graph_ok stages.reading
  -- the attribute of the flattened item has both, and what comes after leaves them
  have flattened {kind : ItemKind} {items flat item : Fields} {key : Text} {above : List (Text × Fields)}
      (authored : AuthoredDocument items) (ancestry : Lineage.Ancestry items ((key, item) :: above))
      (computed : Lineage.Flat kind items key flat)
      (introduced : Lineage.introducedAlong name ((key, item) :: above) = some source)
      (last : Lineage.objectTypeAlong name ((key, item) :: above) = some (.text type)) :
      Draft.TypedAs source type (Entries.get? name (Entries.attributes flat)) ∧
        (Value.text source).truthy = true := by
    have sourced := (Lineage.hereditary_sourced authored).flat computed
    obtain ⟨_, _, other, inherited⟩ := computed
    obtain ⟨rfl, rfl⟩ := ancestry.unique other
    have typed := Lineage.typedAs_of_inherit authored ancestry inherited introduced last
    refine ⟨typed, ?_⟩
    obtain ⟨field, found, _, named, _⟩ := typed
    obtain ⟨_, _, told⟩ := sourced _ (Entries.mem_of_get? found) none field rfl
    obtain ⟨text, same, truthy⟩ := told trivial
    cases named.symm.trans same
    exact truthy
  cases lined with
  | eventClass listed ancestry found =>
      obtain ⟨result, known, reads⟩ := readClasses.get?_right found
      obtain ⟨item, known, completed⟩ := eachClass.get?_right known
      obtain ⟨flat, computed, retouched⟩ := stages.closed_class known
      cases stages.readClasses.symm.trans listed
      obtain ⟨typed, truthy⟩ := flattened (classes _ listed) ancestry computed introduced last
      rw [(readsItem_of_ok reads).attributes]
      exact stages.means_of_completed completed (retouched.typed typed) truthy given plain
  | object listed ancestry found =>
      obtain ⟨result, known, reads⟩ := readObjects.get?_right found
      obtain ⟨item, known, completed⟩ := eachObject.get?_right known
      obtain ⟨flat, computed, attributes⟩ := stages.closed_object known
      cases stages.readObjects.symm.trans listed
      obtain ⟨typed, truthy⟩ := flattened (objects _ listed) ancestry computed introduced last
      rw [(readsItem_of_ok reads).attributes]
      refine stages.means_of_completed completed ?_ truthy given plain
      rcases attributes with ⟨_, same⟩ | ⟨_, ids, enumeration, opened, _, same⟩
      · rw [same]
        exact typed
      · rw [same]
        refine Draft.typed_putShared typed fun identifiers => ?_
        obtain ⟨field, held, told⟩ := typed
        rw [Entries.orEmpty, Entries.getOr, ← identifiers, held] at opened
        cases opened
        exact Draft.TypedAs.put ⟨_, rfl, told⟩ (by decide) (by decide) _

end EventSchema
