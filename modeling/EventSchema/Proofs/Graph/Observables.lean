import EventSchema.Proofs.Graph.Carried
import EventSchema.Proofs.Graph.WellFormed

/-!
The enumeration of observables in a graph.

The object for observables ends up with an enumeration of exactly the identifiers that the dictionary lists
for it, those that it was flattened to have, and those that were declared. Every declaration is there with
its caption and its description, and whatever the finished schema marks as observable is in it.
-/

set_option autoImplicit false

namespace EventSchema

open Value

/-! ### What the graph marks -/

def Attribute.markers (attributes : Entries Attribute) : List Value :=
  attributes.map fun entry => entry.2.observable

/-- The identifiers that the graph marks its dictionary, its objects and all attributes with, null where
there is none. -/
def Graph.markers (graph : Graph) : List Value :=
  Attribute.markers graph.dictionary.attributes ++ Attribute.markers graph.dictionary.types ++
    graph.objects.map (fun entry => entry.2.observable) ++
    (graph.classes ++ graph.objects).flatMap fun entry => Attribute.markers entry.2.attributes

section Markers

variable {ids : Text → Prop} {marker : Value}

private theorem get?_of_orNull {key : Text} {fields : Fields} (same : Entries.orNull key fields = marker)
    (given : marker.isNull = false) : Entries.get? key fields = some marker := by
  subst same
  unfold Entries.orNull Entries.getOr at given ⊢
  cases found : Entries.get? key fields with
  | some value => rfl
  | none =>
      rw [found] at given
      cases given

private theorem exists_of_mem_markers {attributes : Fields} (member :
    marker ∈ Attribute.markers (Attribute.ofValues attributes))
    (given : marker.isNull = false) :
    ∃ entry ∈ attributes, Entries.get? "observable" entry.2.inner = some marker := by
  obtain ⟨⟨name, record⟩, present, same⟩ := List.mem_map.mp member
  obtain ⟨mark, field, known, rfl⟩ := exists_of_mem_ofValues present
  exact ⟨_, known, get?_of_orNull same given⟩

private theorem AreAttributes.shown_marker {attributes : Fields} (whole : AreAttributes ids attributes)
    (member : marker ∈ Attribute.markers (Attribute.ofValues attributes)) (given : marker.isNull = false) :
    ids marker.shown := by
  obtain ⟨entry, present, found⟩ := exists_of_mem_markers member given
  obtain ⟨fields, same, _, shaped⟩ := whole.each entry present
  rw [same] at found
  exact ((shaped _ _ found).observable rfl).2

private theorem Entity.observable_of_ok {key : Text} {kind : ItemKind} {item : Fields} {entity : Entity}
    (ran : Entity.ofFields key kind item = .ok entity) : Entries.orNull "observable" item = entity.observable := by
  unfold Entity.ofFields at ran
  obtain ⟨_, _, ran⟩ := bind_eq_ok.mp ran
  obtain ⟨_, _, ran⟩ := bind_eq_ok.mp ran
  obtain ⟨_, _, ran⟩ := bind_eq_ok.mp ran
  rw [← pure_eq_ok.mp ran]

namespace Stages

variable {d : Definitions} {graph : Graph} {stages : Stages d graph}

theorem Whole.markers (whole : stages.Whole) (member : marker ∈ graph.markers) (given : marker.isNull = false) :
    marker.shown ∈ Observable.ids d.declared := by
  obtain ⟨_, classes, objects⟩ := Draft.graph_ok stages.reading
  obtain ⟨dictionary, dictionaryTypes, _⟩ := Graph.of_draft stages.reading
  unfold Graph.markers at member
  rw [dictionary, dictionaryTypes, whole.types] at member
  rcases List.mem_append.mp member with most | part
  · rcases List.mem_append.mp most with shared | object
    · rcases List.mem_append.mp shared with field | type
      · exact whole.finished.attributes.shown_marker field given
      · obtain ⟨entry, present, found⟩ := exists_of_mem_markers type given
        obtain ⟨o, known, same⟩ := Draft.mem_declaredByEntry "Dictionary Type" found
        rw [← same]
        exact List.mem_map_of_mem (List.mem_append_left _ (List.mem_append_left _
          (List.mem_append_left _ (List.mem_flatMap.mpr ⟨entry, present, known⟩))))
    · obtain ⟨entry, present, same⟩ := List.mem_map.mp object
      obtain ⟨item, known, reads⟩ := objects.mem_right present
      have found := get?_of_orNull ((Entity.observable_of_ok reads).trans same) given
      exact (whole.finished.objects _ known _ _ found).observable rfl rfl
  · obtain ⟨entry, present, field⟩ := List.mem_flatMap.mp part
    rcases List.mem_append.mp present with ofClass | ofObject
    · obtain ⟨item, known, reads⟩ := classes.mem_right ofClass
      rw [(readsItem_of_ok reads).attributes] at field
      exact (whole.finished.classes _ known).areAttributes.shown_marker field given
    · obtain ⟨item, known, reads⟩ := objects.mem_right ofObject
      rw [(readsItem_of_ok reads).attributes] at field
      exact (whole.finished.objects _ known).areAttributes.shown_marker field given

end Stages

end Markers

/-! ### What the enumeration has -/

namespace Draft

/-- The name of a sibling ends otherwise. -/
theorem type_id_ne_datetimeName (origin : Text) : ("type_id" : Text) ≠ datetimeName origin := by
  intro same
  have last := congrArg (fun text => text.codes.getLast?) same
  rw [datetimeName] at last
  rw [Text.codes_append, List.getLast?_append] at last
  cases last

/-- Resolving the types of the dictionary leaves its identifiers of observables. -/
theorem ResolvedFrom.typeIds {before after : Fields} (resolved : ResolvedFrom before after) :
    Draft.typeIds after = Draft.typeIds before := by
  have same := resolved "type_id" type_id_ne_datetimeName "enum" (by decide)
  unfold Draft.typeIds Entries.orEmpty Entries.getOr at *
  rw [same]

/-- The enumeration of an attribute under one of the dictionary, which is copied first. -/
private theorem enum_over {ids : Text → Prop} {attributes field enumeration : Fields} {mark : Option Nat}
    (shared : AreAttributes ids attributes) (keyed : Keyed (.record field))
    (found : Entries.get? "enum" field = some (.object mark enumeration)) :
    ∃ own merged, Entries.get? "enum" (overFields (Entries.get? "type_id" attributes) field) =
        some (.object own merged) ∧
      ∀ id, Entries.get? id merged = Entries.get? id (mergeFields (unsharedFields (typeIds attributes)) enumeration) := by
  have alone (id : Text) : Entries.get? id enumeration =
      Entries.get? id (mergeFields (unsharedFields []) enumeration) := by
    rw [unsharedFields, get?_mergeFields id [] (keyed_object.mp (keyed.of_get? found)).distinct]
    cases Entries.get? id enumeration <;> rfl
  cases known : Entries.get? "type_id" attributes with
  | none =>
      refine ⟨mark, enumeration, found, fun id => ?_⟩
      rw [typeIds, Entries.orEmpty, Entries.orEmpty, Entries.getOr, Entries.getOr, known]
      exact alone id
  | some value =>
      obtain ⟨fields, rfl, keyedShared, shaped⟩ := shared.of_get? known
      rw [overFields, Value.inner_record, get?_mergeFields "enum" _ keyed.distinct, found, get?_unsharedFields]
      rw [typeIds, Entries.orEmpty, Entries.orEmpty, Entries.getOr, Entries.getOr, known, Option.getD_some,
        Value.inner_record]
      cases listed : Entries.get? "enum" fields with
      | none => exact ⟨mark, enumeration, rfl, alone⟩
      | some old =>
          have enumerates := (shaped _ _ listed).enum rfl
          cases old with
          | object own old =>
              refine ⟨none, mergeFields (unsharedFields old) enumeration, ?_, fun _ => rfl⟩
              rw [Option.map_some, unshared]
              dsimp only
              rw [merge_object]
          | null | bool _ | int _ | float _ | text _ | array _ => cases enumerates

private theorem listing_over {o : Observable} {caption : Text} (called : o.caption = .text caption) {old : Value}
    (object : old.isObject = true) :
    Entries.get? "caption" (old.merge (listing o)).inner = some o.caption ∧
      Entries.get? "description" (old.merge (listing o)).inner = some (.text o.description) := by
  cases old with
  | object mark fields =>
      have distinct : Entries.Distinct ([("caption", .text caption), ("description", .text o.description)] :
        Fields) := by
        change (["caption", "description"] : List Text).Nodup
        decide
      rw [listing, called, unshared_of_leaf rfl, Value.record, merge_object, Value.inner, get?_mergeFields _ _ distinct,
        get?_mergeFields _ _ distinct]
      constructor
      · cases Entries.get? "caption" fields with
        | none => rfl
        | some before => exact congrArg some (merge_apart (Or.inr rfl))
      · cases Entries.get? "description" fields with
        | none => rfl
        | some before => exact congrArg some (merge_apart (Or.inr rfl))
  | null | bool _ | int _ | float _ | text _ | array _ => cases object

end Draft

/-- The enumeration of a graph has the identifiers of observables, those and no others: what the dictionary
and the flattened object list, and what is declared. -/
structure Definitions.Enumerates (d : Definitions) (graph : Graph) (flat enumeration : Fields) : Prop where
  keys : ∀ id, Entries.has id enumeration = true ↔
    Entries.has id (Draft.typeIds d.sharedAttributes) = true ∨
      Entries.has id (Draft.typeIds (Entries.attributes flat)) = true ∨ id ∈ Observable.ids d.declared
  told : ∀ o ∈ d.declared, ∃ listed, Entries.get? o.id enumeration = some listed ∧
    Entries.get? "caption" listed.inner = some o.caption ∧
    Entries.get? "description" listed.inner = some (.text o.description)
  markers : ∀ marker ∈ graph.markers, marker.isNull = false → Entries.has marker.shown enumeration = true

private theorem Attribute.enum_of_shown {name : Text} {fields : Fields} {value : Value}
    (told : Entries.get? "enum" (ofFields name fields).toFields = some value) :
    (ofFields name fields).enum = value := by
  rw [get?_toFields, shown, if_pos (by decide)] at told
  change Entries.orNull "enum" fields = value
  rw [Entries.orNull, Entries.getOr, (Option.filter_eq_some_iff.mp told).1, Option.getD_some]

theorem Definitions.WellFormed.enumerates {d : Definitions} (wellFormed : d.WellFormed) {graph : Graph}
    {flat listed merged : Fields}
    (markers : ∀ marker ∈ graph.markers, marker.isNull = false → marker.shown ∈ Observable.ids d.declared)
    (each : ∀ id, Entries.get? id merged =
      Entries.get? id (mergeFields (unsharedFields (Draft.typeIds d.sharedAttributes)) listed))
    (keys : Entries.keys listed =
      Entries.keys (Draft.withListings d.declared (Draft.typeIds (Entries.attributes flat))))
    (distinct : Entries.Distinct listed)
    (declared : ∀ o ∈ d.declared, Entries.get? o.id listed = some (Draft.listing o)) :
    d.Enumerates graph flat merged := by
  have keys (id : Text) : Entries.has id merged = true ↔ Entries.has id (Draft.typeIds d.sharedAttributes) = true ∨
      Entries.has id (Draft.typeIds (Entries.attributes flat)) = true ∨ id ∈ Observable.ids d.declared := by
    rw [or_comm (b := id ∈ _), ← Draft.has_withListings, ← Entries.has_congr keys]
    unfold Entries.has
    rw [each, Option.isSome_iff_ne_none, Ne, get?_mergeFields_eq_none, get?_unsharedFields, Option.map_eq_none_iff,
      not_and_or, ← Ne, ← Ne, ← Option.isSome_iff_ne_none, ← Option.isSome_iff_ne_none]
  refine ⟨keys, fun o member => ?_, fun marker member given => ?_⟩
  · obtain ⟨caption, called⟩ := wellFormed.captions member
    rw [each, get?_mergeFields _ _ distinct, declared o member, get?_unsharedFields]
    cases known : Entries.get? o.id (Draft.typeIds d.sharedAttributes) with
    | none =>
        refine ⟨Draft.listing o, rfl, ?_, rfl⟩
        rw [called, Draft.listing, called]
        rfl
    | some old =>
        obtain ⟨_, _, _, _, _, enumerates, _⟩ := Draft.typeIds_read wellFormed.attributes
        have object := isSection_iff.mp enumerates _ (Entries.mem_of_get? known)
        exact ⟨_, rfl, Draft.listing_over called ((isObject_unshared old).trans object)⟩
  · exact (keys _).mpr (Or.inr (Or.inr (markers marker member given)))

namespace Stages

variable {d : Definitions} {graph : Graph} {stages : Stages d graph}

theorem Whole.enumerates (whole : stages.Whole) (wellFormed : d.WellFormed) (apart : ¬d.Collides) {entity : Entity}
    (found : Entries.get? "observable" graph.objects = some entity) :
    ∃ flat record mark enumeration, Lineage.Flat .object d.objects.inner "observable" flat ∧
      Entries.get? "type_id" entity.attributes = some record ∧ record.enum = .object mark enumeration ∧
      d.Enumerates graph flat enumeration := by
  obtain ⟨enabled, _, _, passes⟩ := stages.passes
  obtain ⟨result, finished, reads⟩ := (Draft.graph_ok stages.reading).2.2.get?_right found
  obtain ⟨item, closed, dated, required, passes⟩ := passes.get?_right finished
  obtain ⟨flat, computed, ⟨other, _⟩ | ⟨_, fields, enumeration, opened, enumerated, same⟩⟩ :=
    stages.closed_object closed
  · exact absurd rfl other
  rw [whole.readObjects] at computed
  rw [whole.observables] at enumerated
  obtain ⟨enums, isFlat⟩ := Lineage.isFlat_of_flat wellFormed.marked.2.2 computed
  have distinct : (Observable.ids d.declared).Nodup := not_not.mp fun twice => apart (Or.inl twice)
  have fresh (o : Observable) (member : o ∈ d.declared) :
      Entries.has o.id (Draft.typeIds (Entries.attributes flat)) = false :=
    Bool.eq_false_iff.mpr fun present => apart (Or.inr ⟨flat, computed, o, member, present⟩)
  -- the attribute that the enumeration is listed in
  obtain ⟨mark, read, opened', enumerated', entered⟩ := Draft.typeIds_listed isFlat.attributes distinct
    (fun _ => wellFormed.keyed_caption) fresh
  cases opened.symm.trans opened'
  cases enumerated.symm.trans enumerated'
  obtain ⟨field, listed, held, keyed, listing, keys, entries⟩ :=
    entered.get?_putShared (Entries.get?_put_self ..) "type_id" (Entries.attributes flat)
  -- it is carried through the last passes
  have carries := stages.carried (whole.closed.objects _ (Entries.mem_of_get? closed)).areAttributes.distinct rfl
    (.none _) passes reads
  obtain ⟨_, _, record, shape, present, keeps⟩ := carries.kept "type_id" _ (same ▸ held) List.not_mem_nil
  cases shape
  obtain ⟨own, merged, found, each⟩ := Draft.enum_over whole.dictionary keyed listing
  have told : Entries.get? "enum" record.toFields = some (.object own merged) := by
    rw [keeps.merged "enum" (by decide), ← stages.shown_under, stages.dictionary_eq, found, Attribute.shown,
      if_pos (by decide)]
    rfl
  rw [(readsItem_of_ok reads).attributes] at present
  obtain ⟨_, _, _, rfl⟩ := exists_of_mem_ofValues (Entries.mem_of_get? present)
  refine ⟨flat, _, own, merged, computed, ?_, Attribute.enum_of_shown told, ?_⟩
  · rw [(readsItem_of_ok reads).attributes]
    exact present
  · rw [whole.resolved.typeIds] at each
    refine wellFormed.enumerates (fun _ => whole.markers) each keys
      (keyed_object.mp (keyed.of_get? listing)).distinct fun o member => ?_
    exact entries _ _ (Draft.get?_listed distinct member _) (Draft.plain_listing o)

private theorem Whole.has_observable (whole : stages.Whole) :
    Entries.has "observable" graph.objects = Entries.has "observable" d.objects.inner := by
  have shown : Entries.has "observable" stages.shownObjects = Entries.has "observable" stages.flatObjects := by
    have kept := Entries.get?_filter (fun key => !isHiddenObject key) "observable" stages.flatObjects
    rw [if_pos (by decide)] at kept
    exact congrArg Option.isSome kept
  have flattened := (Lineage.flattenAll_ok stages.flattenObjects).keys_eq
  rw [whole.readObjects] at flattened
  rw [← Entries.has_congr flattened, ← shown]
  exact Entries.has_congr (stages.keys_objects.trans stages.related_objects.keys_eq) _

end Stages

/-- The build of well-formed definitions stops at a duplicate just if two observables are declared with one
identifier, or one with an identifier that the flattened object for observables has already. Otherwise it
comes to a graph: the object is in it if it was defined, its enumeration has every declared observable
beside what the dictionary and the object itself list, and whatever the graph marks is in it. -/
theorem Graph.observables_enumerated {d : Definitions} (wellFormed : d.WellFormed) (run : Run) :
    ((∃ report after, (Graph.ofDefinitions d).outcome run = (.error (.duplicate report), after)) ↔ d.Collides) ∧
      (¬d.Collides → ∃ graph after, (Graph.ofDefinitions d).outcome run = (.ok graph, after) ∧
        Entries.has "observable" graph.objects = Entries.has "observable" d.objects.inner ∧
        ∀ entity, Entries.get? "observable" graph.objects = some entity →
          ∃ flat record mark enumeration, Lineage.Flat .object d.objects.inner "observable" flat ∧
            Entries.get? "type_id" entity.attributes = some record ∧ record.enum = .object mark enumeration ∧
            d.Enumerates graph flat enumeration) := by
  have ends := wellFormed.build_ends run
  cases ran : (Graph.ofDefinitions d).outcome run with | mk outcome after =>
  rw [ran] at ends
  cases outcome with
  | error fault =>
      obtain ⟨collides, report, rfl⟩ := ends
      exact ⟨⟨fun _ => collides, fun _ => ⟨report, after, rfl⟩⟩, fun apart => absurd collides apart⟩
  | ok graph =>
      obtain ⟨apart, stages, whole⟩ := ends
      refine ⟨⟨?_, fun collides => absurd collides apart⟩, fun _ => ?_⟩
      · rintro ⟨_, _, impossible⟩
        cases impossible
      · exact ⟨graph, after, rfl, whole.has_observable, fun _ found => whole.enumerates wellFormed apart found⟩

namespace Graph

/-- An enumeration in two places. -/
def sharedKinds : Value := .object (some 0) [("1", .record [("caption", .text "Other")])]

/-- A user whose identifier as an observable is open; its name, which it inherits from a hidden object, is
the observable 5. The object for observables has two attributes with the same enumeration. -/
def marking (id : Int) : Definitions where
  version := .text "1.0.0"
  categories := .record []
  dictionary := .record [("attributes", .record [
    ("type_id", .record [("enum", .record [("0", .record [("caption", .text "Unknown")])])]),
    ("name", .record [("caption", .text "Name")])])]
  classes := .record [("base_event", .record [])]
  objects := .record [
    ("observable", .record [("attributes", .record [
      ("type_id", .record [("enum", sharedKinds)]), ("kind_id", .record [("enum", sharedKinds)])])]),
    ("_entity", .record [("attributes", .record [("name", .record [("observable", .int 5)])])]),
    ("user", .record [("extends", .text "_entity"), ("observable", .int id)])]
  profiles := .record []
  extensions := []

private theorem isAttribute_sharedKinds : IsAttribute (fun _ => True) (.record [("enum", sharedKinds)]) :=
  ⟨_, rfl, by decide, Shaped.of_entries (List.forall_mem_singleton.mpr (attributeField_of_enum rfl))⟩

private theorem sited_sharedKinds : Sited (· = 0) (.record [("enum", sharedKinds)]) := by
  refine Shaped.of_entries (List.forall_mem_singleton.mpr (sitedField_enum.mpr ⟨?_, ?_⟩))
  · rintro _ ⟨⟩
    rfl
  · exact markedFields_iff.mpr (List.forall_mem_singleton.mpr (Plain.marked rfl))

private theorem wellFormed_marking (id : Int) : (marking id).WellFormed where
  categories := ⟨[], [], rfl, rfl, fun _ impossible => absurd impossible List.not_mem_nil⟩
  dictionary := ⟨_, rfl, rfl⟩
  attributes := by
    refine ⟨?_, List.forall_mem_cons.mpr ⟨?_, List.forall_mem_singleton.mpr ?_⟩⟩
    · change (["type_id", "name"] : List Text).Nodup
      decide
    · refine ⟨_, rfl, by decide, Shaped.of_entries (List.forall_mem_singleton.mpr (attributeField_of_enum rfl))⟩
    · exact ⟨_, rfl, by decide, Shaped.of_entries (List.forall_mem_singleton.mpr
        (attributeField_of_other (by decide) (by decide) (by decide) _))⟩
  told := by
    refine List.forall_mem_cons.mpr ⟨⟨?_, ?_⟩, List.forall_mem_singleton.mpr ⟨?_, ?_⟩⟩
    · rintro _ ⟨⟩
    · rintro _ ⟨⟩
    · rintro _ ⟨⟩
    · rintro _ ⟨⟩
      exact ⟨_, rfl⟩
  types := ⟨[], rfl, rfl⟩
  eachType := fun _ impossible => absurd impossible List.not_mem_nil
  classes := ⟨rfl, List.nodup_singleton _⟩
  eachClass := by
    refine ⟨fun key value found => ?_, fun key cycle => ?_⟩
    · obtain ⟨rfl, rfl⟩ := Prod.mk.inj (List.mem_singleton.mp (Entries.mem_of_get? found))
      exact ⟨[], rfl, keyed_nil, (fun _ _ impossible => by cases impossible), fun _ => False, List.forall_mem_nil _⟩
    · obtain ⟨_, ⟨value, found, parent⟩, _⟩ := Relation.TransGen.head'_iff.mp cycle
      obtain ⟨rfl, rfl⟩ := Prod.mk.inj (List.mem_singleton.mp (Entries.mem_of_get? found))
      cases parent
  baseEvent := rfl
  objects := by
    refine ⟨rfl, ?_⟩
    change (["observable", "_entity", "user"] : List Text).Nodup
    decide
  eachObject := by
    have cases {key : Text} {value : Value} (found : Entries.get? key (marking id).objects.inner = some value) :
        (key = "observable" ∧ value = .record [("attributes", .record [
          ("type_id", .record [("enum", sharedKinds)]), ("kind_id", .record [("enum", sharedKinds)])])]) ∨
          (key = "_entity" ∧ value = .record [("attributes", .record [("name", .record [("observable", .int 5)])])]) ∨
          (key = "user" ∧ value = .record [("extends", .text "_entity"), ("observable", .int id)]) := by
      have member := Entries.mem_of_get? found
      change (key, value) ∈ ([_, _, _] : List _) at member
      simpa only [List.mem_cons, List.not_mem_nil, or_false, Prod.mk.injEq] using member
    have parents {child parent : Text} (extends_ : Lineage.Parent (marking id).objects.inner child parent) :
        child = "user" ∧ parent = "_entity" := by
      obtain ⟨value, found, parent⟩ := extends_
      rcases cases found with ⟨rfl, rfl⟩ | ⟨rfl, rfl⟩ | ⟨rfl, rfl⟩
      · cases parent
      · cases parent
      · cases parent
        exact ⟨rfl, rfl⟩
    refine ⟨fun key value found => ?_, fun key cycle => ?_⟩
    · rcases cases found with ⟨_, rfl⟩ | ⟨_, rfl⟩ | ⟨_, rfl⟩
      · refine ⟨_, rfl, by decide, Shaped.of_entries (List.forall_mem_singleton.mpr (rawField_attributes ?_)), ?_⟩
        · exact List.forall_mem_cons.mpr ⟨Or.inr isAttribute_sharedKinds, List.forall_mem_singleton.mpr
            (Or.inr isAttribute_sharedKinds)⟩
        · exact ⟨_, List.forall_mem_cons.mpr ⟨sited_sharedKinds, List.forall_mem_singleton.mpr sited_sharedKinds⟩⟩
      · refine ⟨_, rfl, by decide, Shaped.of_entries (List.forall_mem_singleton.mpr ?_), fun _ => False, ?_⟩
        · refine rawField_attributes (List.forall_mem_singleton.mpr (Or.inr ⟨_, rfl, by decide, ?_⟩))
          exact Shaped.of_entries (List.forall_mem_singleton.mpr (attributeField_of_observable rfl trivial))
        · refine List.forall_mem_singleton.mpr ?_
          exact Shaped.of_entries (List.forall_mem_singleton.mpr (sitedField_of_leaf rfl))
      · refine ⟨_, rfl, ?_, Shaped.of_entries (List.forall_mem_cons.mpr ⟨?_, List.forall_mem_singleton.mpr ?_⟩),
          fun _ => False, List.forall_mem_nil _⟩
        · refine keyed_record.mpr ⟨?_, List.forall_mem_cons.mpr ⟨?_, List.forall_mem_singleton.mpr ?_⟩⟩
          · change (["extends", "observable"] : List Text).Nodup
            decide
          · exact keyed_of_not_object rfl
          · exact keyed_of_not_object rfl
        · exact rawField_of_name (by decide) rfl
        · have other : ("observable" : Text) ∉ rawKeys := by decide
          exact rawField_of_other other (ownField_of_observable fun _ => trivial)
    · obtain ⟨_, first, others⟩ := Relation.TransGen.head'_iff.mp cycle
      obtain ⟨rfl, rfl⟩ := parents first
      rcases Relation.ReflTransGen.cases_head others with same | ⟨_, next, _⟩
      · exact absurd same (by decide)
      · exact absurd (parents next).1 (by decide)
  profiles := ⟨[], rfl, fun _ impossible => absurd impossible List.not_mem_nil⟩

/-- An identifier that is declared twice stops the build; otherwise all of them are listed, beside what the
dictionary and the object for observables list. -/
theorem observables_enumerated_marking :
    (∃ report after, (Graph.ofDefinitions (marking 5)).outcome {} = (.error (.duplicate report), after)) ∧
      ∃ graph after entity record mark enumeration,
        (Graph.ofDefinitions (marking 21)).outcome {} = (.ok graph, after) ∧
        Entries.get? "observable" graph.objects = some entity ∧
        Entries.get? "type_id" entity.attributes = some record ∧ record.enum = .object mark enumeration ∧
        ∀ id ∈ (["0", "1", "5", "21"] : List Text), Entries.has id enumeration = true := by
  have distinct : ¬(Observable.ids (marking 5).declared).Nodup := by decide +kernel
  refine ⟨(observables_enumerated (wellFormed_marking 5) {}).1.mpr (Or.inl distinct), ?_⟩
  obtain ⟨collides, builds⟩ := observables_enumerated (wellFormed_marking 21) {}
  have built : ((Graph.ofDefinitions (marking 21)).outcome {}).1.toOption.isSome = true := by decide +kernel
  have apart : ¬(marking 21).Collides := by
    intro colliding
    obtain ⟨report, after, stopped⟩ := collides.mpr colliding
    rw [stopped] at built
    cases built
  obtain ⟨graph, after, ran, present, each⟩ := builds apart
  obtain ⟨entity, found⟩ := Option.isSome_iff_exists.mp (present.trans (by decide))
  obtain ⟨flat, record, mark, enumeration, computed, held, listed, enumerates⟩ := each entity found
  obtain rfl : flat = _ := computed.unique ⟨_, [], .root rfl (Or.inr rfl), rfl⟩
  refine ⟨graph, after, entity, record, mark, enumeration, ran, found, held, listed, ?_⟩
  have known : ∀ id ∈ (["0", "1", "5", "21"] : List Text),
      Entries.has id (Draft.typeIds (marking 21).sharedAttributes) = true ∨
        Entries.has id sharedKinds.inner = true ∨ id ∈ Observable.ids (marking 21).declared := by decide +kernel
  exact fun id member => (enumerates.keys id).mpr (known id member)

end Graph
end EventSchema
