import EventSchema.Proofs.Draft.Complete
import EventSchema.Proofs.Draft.Identified
import EventSchema.Proofs.Graph.Stages

/-!
Well-formed definitions, and how their build ends.

Definitions are well-formed if every document has the shapes that the schema language asks for and no item
is its own ancestor. The attributes of an item may share objects, an enumeration with enumerations alone.
Their build can only stop at a duplicate observable: at two declarations of one identifier, or at a
declaration of one that the object for observables has in its enumeration when it is flattened. Otherwise it
passes all stages, and what observables are marked with was declared.
-/

set_option autoImplicit false

namespace EventSchema

open Value

def Captioned (value : Value) : Prop :=
  ∀ caption, Entries.get? "caption" value.inner = some caption → ∃ text : Text, caption = .text text

def Definitions.sharedAttributes (d : Definitions) : Fields := Entries.attributes d.dictionary.inner

def Definitions.sharedTypes (d : Definitions) : Fields :=
  Entries.attributes (Entries.orEmpty "types" d.dictionary.inner).inner

/-- Definitions of the shapes that the schema language asks for, without an item that is its own
ancestor. -/
structure Definitions.WellFormed (d : Definitions) : Prop where
  categories : ∃ fields listed, d.categories = .record fields ∧
    Value.orElse (Entries.get? "attributes" fields) (.record []) = .record listed ∧
    ∀ entry ∈ listed, Draft.IsCategory entry.2 ∧ Keyed entry.2
  dictionary : ∃ fields, d.dictionary = .record fields ∧
    Entries.get? "attributes" fields = some (.record (Entries.attributes fields))
  attributes : AreAttributes (fun _ => True) d.sharedAttributes
  told : ∀ entry ∈ d.sharedAttributes, Draft.Described entry.2 ∧ Captioned entry.2
  types : ∃ fields, Entries.orEmpty "types" d.dictionary.inner = .record fields ∧
    Entries.orEmpty "attributes" fields = .record (Entries.attributes fields)
  eachType : ∀ entry ∈ d.sharedTypes, entry.2.isObject = true ∧ Keyed entry.2 ∧ Captioned entry.2
  classes : d.classes = .record d.classes.inner ∧ Entries.Distinct d.classes.inner
  eachClass : AreRawItems .eventClass (fun _ => True) d.classes.inner
  baseEvent : Entries.has "base_event" d.classes.inner = true
  objects : d.objects = .record d.objects.inner ∧ Entries.Distinct d.objects.inner
  eachObject : AreRawItems .object (fun _ => True) d.objects.inner
  profiles : ∃ items, d.profiles = .record items ∧
    ∀ entry ∈ items, ∃ item, entry.2 = .record item ∧ IsItem .profile (fun _ => True) item

/-! ### Every mark is declared -/

section Marked

variable {ids : Text → Prop}

theorem IsAttribute.marked {value : Value} (whole : IsAttribute (fun _ => True) value)
    (declared : ∀ id, Entries.get? "observable" value.inner = some id → ids id.shown) : IsAttribute ids value := by
  obtain ⟨fields, rfl, keyed, shaped⟩ := whole
  refine ⟨fields, rfl, keyed, fun key value found => ?_⟩
  have field := shaped key value found
  exact ⟨field.name, field.enum, fun same => ⟨(field.observable same).1, declared value (same ▸ found)⟩⟩

namespace Draft

theorem mem_declaredByEntry (kind : Text) {entry : Text × Value} {id : Value}
    (marked : Entries.get? "observable" entry.2.inner = some id) :
    ∃ o ∈ declaredByEntry kind entry, o.id = id.shown := by
  unfold declaredByEntry
  rw [marked]
  exact ⟨_, List.mem_singleton_self _, rfl⟩

private theorem mem_declaredByItself (caption : Value) {item : Fields} {id : Value}
    (marked : Entries.get? "observable" item = some id) :
    ∃ o ∈ declaredByItself .object caption item, o.id = id.shown := by
  unfold declaredByItself
  rw [if_pos rfl, marked]
  exact ⟨_, List.mem_singleton_self _, rfl⟩

private theorem mem_declaredByAttributes (kind : ItemKind) (caption : Value) {attributes : Fields}
    {entry : Text × Value}
    (member : entry ∈ attributes) {id : Value} (marked : Entries.get? "observable" entry.2.inner = some id) :
    ∃ o ∈ declaredByAttributes kind caption attributes, o.id = id.shown := by
  refine ⟨declaredByPart kind caption entry.1 id, List.mem_flatMap.mpr ⟨entry, member, ?_⟩, rfl⟩
  rw [marked]
  exact List.mem_singleton_self _

end Draft

open Draft

theorem IsRawItem.marked {kind : ItemKind} {caption : Value} {item : Fields}
    (raw : IsRawItem kind (fun _ => True) item) (declared : ∀ o ∈ declaredByFields kind caption item, ids o.id) :
    IsRawItem kind ids item := by
  refine { raw with shaped := fun key value found => ?_ }
  have field := raw.shaped key value found
  exact { field with
    observable := by
      rintro rfl rfl
      obtain ⟨o, member, same⟩ := mem_declaredByItself caption found
      rw [← same]
      exact declared o (List.mem_append_left _ (List.mem_append_left _ member))
    declared := by
      rintro rfl entry member
      refine (field.declared rfl entry member).imp_right fun whole => whole.marked fun id marked => ?_
      obtain ⟨attributes, rfl⟩ := field.attributes rfl
      have own : Entries.attributes item = attributes := by
        rw [Entries.attributes, found]
        rfl
      obtain ⟨o, known, same⟩ := mem_declaredByAttributes kind caption (own ▸ member) marked
      rw [← same]
      exact declared o (List.mem_append_left _ (List.mem_append_right _ known)) }

theorem AreRawItems.marked {kind : ItemKind} {items : Fields} (raw : AreRawItems kind (fun _ => True) items)
    (declared : ∀ o ∈ declaredByItems kind items, ids o.id) : AreRawItems kind ids items := by
  refine ⟨fun key value found => ?_, raw.acyclic⟩
  obtain ⟨item, rfl, whole⟩ := raw.each key value found
  exact ⟨item, rfl, whole.marked fun o member =>
    declared o (List.mem_flatMap.mpr ⟨_, Entries.mem_of_get? found, member⟩)⟩

end Marked

/-! ### The captions of declarations -/

namespace Draft

private theorem caption_declaredByEntry {kind : Text} {entry : Text × Value} (captioned : Captioned entry.2)
    {o : Observable}
    (member : o ∈ declaredByEntry kind entry) : ∃ caption : Text, o.caption = .text caption := by
  unfold declaredByEntry at member
  obtain ⟨id, _, rfl⟩ := List.mem_map.mp member
  change ∃ caption : Text, Entries.getOr "caption" entry.2.inner (.text entry.1) = .text caption
  unfold Entries.getOr
  cases found : Entries.get? "caption" entry.2.inner with
  | none => exact ⟨entry.1, rfl⟩
  | some caption => exact captioned caption found

private theorem caption_declaredByFields {kind : ItemKind} {caption : Text} {item : Fields} {o : Observable}
    (member : o ∈ declaredByFields kind (.text caption) item) : ∃ caption : Text, o.caption = .text caption := by
  rcases List.mem_append.mp member with own | path
  · rcases List.mem_append.mp own with itself | part
    · unfold declaredByItself at itself
      split at itself
      · obtain ⟨id, _, rfl⟩ := List.mem_map.mp itself
        exact ⟨caption, rfl⟩
      · cases itself
    · obtain ⟨entry, _, told⟩ := List.mem_flatMap.mp part
      obtain ⟨id, _, rfl⟩ := List.mem_map.mp told
      exact ⟨_, rfl⟩
  · obtain ⟨entry, _, rfl⟩ := List.mem_map.mp path
    exact ⟨_, rfl⟩

private theorem caption_declaredByItems {kind : ItemKind} {ids : Text → Prop} {items : Fields}
    (raw : AreRawItems kind ids items) {o : Observable} (member : o ∈ declaredByItems kind items) :
    ∃ caption : Text, o.caption = .text caption := by
  obtain ⟨entry, present, told⟩ := List.mem_flatMap.mp member
  obtain ⟨caption, _, called⟩ := captionOf_text raw (List.mem_map_of_mem present)
  rw [called] at told
  exact caption_declaredByFields told

end Draft

namespace Definitions.WellFormed

variable {d : Definitions}

theorem captions (whole : d.WellFormed) {o : Observable} (member : o ∈ d.declared) :
    ∃ caption : Text, o.caption = .text caption := by
  rcases List.mem_append.mp member with most | object
  · rcases List.mem_append.mp most with shared | item
    · rcases List.mem_append.mp shared with type | field
      · obtain ⟨entry, present, told⟩ := List.mem_flatMap.mp type
        exact Draft.caption_declaredByEntry (whole.eachType entry present).2.2 told
      · obtain ⟨entry, present, told⟩ := List.mem_flatMap.mp field
        exact Draft.caption_declaredByEntry (whole.told entry present).2 told
    · exact Draft.caption_declaredByItems whole.eachClass item
  · exact Draft.caption_declaredByItems whole.eachObject object

theorem keyed_caption (whole : d.WellFormed) {o : Observable} (member : o ∈ d.declared) : Keyed o.caption := by
  obtain ⟨caption, same⟩ := whole.captions member
  rw [same]
  exact keyed_of_not_object rfl

/-- Whatever is marked with an identifier is among what is declared. -/
theorem marked (whole : d.WellFormed) :
    AreAttributes (· ∈ Observable.ids d.declared) d.sharedAttributes ∧
      AreRawItems .eventClass (· ∈ Observable.ids d.declared) d.classes.inner ∧
      AreRawItems .object (· ∈ Observable.ids d.declared) d.objects.inner := by
  refine ⟨⟨whole.attributes.distinct, fun entry member => ?_⟩, ?_, ?_⟩
  · refine (whole.attributes.each entry member).marked fun id marked => ?_
    obtain ⟨o, known, same⟩ := Draft.mem_declaredByEntry "Dictionary Attribute" marked
    rw [← same]
    exact List.mem_map_of_mem (List.mem_append_left _ (List.mem_append_left _
      (List.mem_append_right _ (List.mem_flatMap.mpr ⟨entry, member, known⟩))))
  · exact whole.eachClass.marked fun o member =>
      List.mem_map_of_mem (List.mem_append_left _ (List.mem_append_right _ member))
  · exact whole.eachObject.marked fun o member => List.mem_map_of_mem (List.mem_append_right _ member)

/-! ### The draft to start with -/

/-- All declarations are collected, or the first of a duplicate identifier is reported. -/
theorem collects (whole : d.WellFormed) :
    Draft.Collects (d.observables d.sharedTypes d.sharedAttributes) [] d.declared := by
  have types : ∀ entry ∈ d.sharedTypes, entry.2.isObject = true := fun entry member => (whole.eachType entry member).1
  have attributes : ∀ entry ∈ d.sharedAttributes, entry.2.isObject = true :=
    fun entry member => (whole.attributes.each entry member).isObject
  unfold Definitions.observables Definitions.declared
  rw [whole.classes.1, whole.objects.1, List.append_assoc, List.append_assoc]
  refine (Draft.collects_dictionary _ _ types).bind ?_
  refine (Draft.collects_dictionary _ _ attributes).bind ?_
  refine (Draft.collects_items whole.eachClass _ whole.classes.2).bind ?_
  exact Draft.collects_items whole.eachObject _ whole.objects.2

theorem ofDefinitions_eq (whole : d.WellFormed) : ∃ listed extras,
    (∀ entry ∈ listed, Draft.IsCategory entry.2 ∧ Keyed entry.2) ∧
    Draft.ofDefinitions d = (d.observables d.sharedTypes d.sharedAttributes >>= fun observables => .ok {
      version := d.version
      extensions := d.extensions
      profiles := d.profiles
      dictionaryExtras := extras
      observables
      categories := .record listed
      attributes := d.sharedAttributes
      types := d.sharedTypes
      classes := []
      objects := [] }) := by
  obtain ⟨fields, listed, categories, found, each⟩ := whole.categories
  obtain ⟨shared, dictionary, attributes⟩ := whole.dictionary
  obtain ⟨inner, opened, types⟩ := whole.types
  refine ⟨listed, Entries.beside ["attributes", "types"] shared, each, ?_⟩
  have sharedAttributes : d.sharedAttributes = Entries.attributes shared := by
    rw [Definitions.sharedAttributes, dictionary, Value.inner_record]
  have sharedTypes : d.sharedTypes = Entries.attributes inner := by
    rw [Definitions.sharedTypes, opened, Value.inner_record]
  have parts : d.dictionaryFields = .ok (shared, d.sharedAttributes) := by
    rw [Definitions.dictionaryFields, dictionary, Value.record]
    dsimp only
    rw [attributes, sharedAttributes, Value.record]
  have based : Draft.holds d.classes "base_event" = .ok true := by
    rw [whole.classes.1]
    exact congrArg Except.ok whole.baseEvent
  have category : d.categories.field? "attributes" = .ok (Entries.get? "attributes" fields) := by
    rw [categories]
    rfl
  rw [dictionary, Value.inner_record] at opened
  unfold Draft.ofDefinitions
  rw [category, ok_bind, parts, ok_bind]
  dsimp only
  rw [based, ok_bind, if_neg (by decide), opened, found, Value.record, Value.asFields, ok_bind, types, Value.record,
    Value.asFields, ok_bind, sharedTypes]
  rfl

/-- The draft starts with everything that is declared, if no identifier is declared twice. -/
theorem ensures_start (whole : d.WellFormed) (distinct : (Observable.ids d.declared).Nodup) :
    Ensures (Draft.ofDefinitions d) fun start => start.observables = d.declared ∧
      start.attributes = d.sharedAttributes ∧ start.types = d.sharedTypes ∧
      Draft.Formed (· ∈ Observable.ids d.declared) start := by
  obtain ⟨listed, extras, categories, same⟩ := whole.ofDefinitions_eq
  rw [same, whole.collects.added distinct, ok_bind]
  exact .ok ⟨rfl, rfl, rfl, {
    attributes := whole.marked.1
    described := fun entry member => (whole.told entry member).1
    types := fun entry member => ⟨(whole.eachType entry member).1, (whole.eachType entry member).2.1⟩
    categories := ⟨listed, rfl, categories⟩
    profiles := whole.profiles
    classes := fun _ impossible => absurd impossible List.not_mem_nil
    objects := fun _ impossible => absurd impossible List.not_mem_nil }⟩

/-- An identifier that is declared twice leaves nothing to start with. -/
theorem start_collides (whole : d.WellFormed) (colliding : ¬(Observable.ids d.declared).Nodup) :
    ∃ report, Draft.ofDefinitions d = .error (.duplicate report) := by
  obtain ⟨_, _, _, same⟩ := whole.ofDefinitions_eq
  obtain ⟨report, stopped⟩ := whole.collects.collides List.nodup_nil colliding
  refine ⟨report, ?_⟩
  rw [same, stopped]
  rfl

end Definitions.WellFormed

namespace Draft

variable {ids : Text → Prop} {start : Draft} {rawClasses rawObjects : Fields} {classes objects : Entries Fields}

theorem Formed.hideItems (formed : Formed ids start) (ofClasses : AreRawItems .eventClass ids rawClasses)
    (ofObjects : AreRawItems .object ids rawObjects)
    (flatClasses : Entries.Related (fun key _ flat => Lineage.Flat .eventClass rawClasses key flat) rawClasses classes)
    (flatObjects : Entries.Related (fun key _ flat => Lineage.Flat .object rawObjects key flat) rawObjects objects) :
    Formed ids ({ start with classes, objects } : Draft).hideItems ∧
      ∀ entry ∈ ({ start with classes, objects } : Draft).hideItems.classes, Named entry.2 := by
  have eachClass (entry) (member : entry ∈ ({ start with classes, objects } : Draft).hideItems.classes) :
      IsItem .eventClass ids entry.2 ∧ Named entry.2 := by
    obtain ⟨_, _, computed⟩ := flatClasses.mem_right (List.mem_of_mem_filter member)
    obtain ⟨_, flat⟩ := Lineage.isFlat_of_flat ofClasses computed
    exact ⟨flat.isItem, flat.named⟩
  refine ⟨{ formed with classes := fun entry member => (eachClass entry member).1, objects := fun entry member => ?_ },
    fun entry member => (eachClass entry member).2⟩
  obtain ⟨_, _, computed⟩ := flatObjects.mem_right (List.mem_of_mem_filter member)
  obtain ⟨_, flat⟩ := Lineage.isFlat_of_flat ofObjects computed
  exact flat.isItem

private theorem observable_shown (flatObjects : Entries.Related
    (fun key _ flat => Lineage.Flat .object rawObjects key flat)
    rawObjects objects) (flat : Fields) :
    Entries.get? "observable" ({ start with classes, objects } : Draft).hideItems.objects = some flat ↔
      Lineage.Flat .object rawObjects "observable" flat := by
  have shown : Entries.get? "observable" ({ start with classes, objects } : Draft).hideItems.objects =
      Entries.get? "observable" objects := by
    have kept := Entries.get?_filter (fun key => !isHiddenObject key) "observable" objects
    rw [if_pos (by decide)] at kept
    exact kept
  rw [shown]
  constructor
  · intro found
    obtain ⟨_, _, computed⟩ := flatObjects.mem_right (Entries.mem_of_get? found)
    exact computed
  · intro computed
    have present : ∃ value, Entries.get? "observable" rawObjects = some value := by
      obtain ⟨_, _, line, _⟩ := computed
      cases line with
      | root found => exact ⟨_, found⟩
      | child found => exact ⟨_, found⟩
    obtain ⟨value, found⟩ := present
    obtain ⟨other, known, computed'⟩ := flatObjects.get?_left found
    rw [known, computed'.unique computed]

end Draft

/-! ### How the build ends -/

/-- An identifier is declared twice, or the object for observables has it already. -/
def Definitions.Collides (d : Definitions) : Prop :=
  ¬(Observable.ids d.declared).Nodup ∨
    ∃ flat, Lineage.Flat .object d.objects.inner "observable" flat ∧
      ∃ o ∈ d.declared, Entries.has o.id (Draft.typeIds (Entries.attributes flat)) = true

structure Stages.Whole {d : Definitions} {graph : Graph} (stages : Stages d graph) : Prop where
  readClasses : stages.rawClasses = d.classes.inner
  readObjects : stages.rawObjects = d.objects.inner
  observables : stages.identified.observables = d.declared
  resolved : Draft.ResolvedFrom d.sharedAttributes stages.resolved.attributes
  dictionary : AreAttributes (· ∈ Observable.ids d.declared) stages.resolved.attributes
  closed : Draft.Formed (· ∈ Observable.ids d.declared) stages.closed
  finished : Draft.Formed (· ∈ Observable.ids d.declared) stages.finished
  types : stages.finished.types = d.sharedTypes

namespace Definitions.WellFormed

variable {d : Definitions}

/-- The build of well-formed definitions stops at a collision of observables, and passes all stages if
there is none. -/
theorem build_ends (whole : d.WellFormed) : (Graph.ofDefinitions d).Ends fun
    | .error fault => d.Collides ∧ ∃ report, fault = .duplicate report
    | .ok graph => ¬d.Collides ∧ ∃ stages : Stages d graph, stages.Whole := by
  unfold Graph.ofDefinitions
  by_cases distinct : (Observable.ids d.declared).Nodup
  swap
  · obtain ⟨report, stopped⟩ := whole.start_collides distinct
    refine Act.ends_bind_of_fault fun run => ⟨.duplicate report, run, ?_, Or.inl distinct, report, rfl⟩
    rw [Act.outcome_lift, stopped]
  obtain ⟨_, ofClasses, ofObjects⟩ := whole.marked
  have readClasses : d.classes.asFields = .ok d.classes.inner := by rw [whole.classes.1]; rfl
  have readObjects : d.objects.asFields = .ok d.objects.inner := by rw [whole.objects.1]; rfl
  refine (Act.ensures_lift (whole.ensures_start distinct)).yields.ends_bind fun start both => ?_
  obtain ⟨starting, observables, attributes, types, formed⟩ := both
  refine (Act.ensures_lift ⟨_, readClasses, rfl⟩ : Act.Ensures _ (· = d.classes.inner)).ends_bind fun _ same => ?_
  subst same
  refine (Lineage.ensures_flattenAll ofClasses).yields.ends_bind fun flatClasses both => ?_
  obtain ⟨flattenClasses, relatedClasses⟩ := both
  refine (Act.ensures_lift ⟨_, readObjects, rfl⟩ : Act.Ensures _ (· = d.objects.inner)).ends_bind fun _ same => ?_
  subst same
  refine (Lineage.ensures_flattenAll ofObjects).yields.ends_bind fun flatObjects both => ?_
  obtain ⟨flattenObjects, relatedObjects⟩ := both
  dsimp only
  obtain ⟨hidden, named⟩ := formed.hideItems ofClasses ofObjects relatedClasses relatedObjects
  refine (Draft.ensures_resolveDictionary hidden).yields.ends_bind fun resolved both => ?_
  obtain ⟨resolving, formedResolved, resolvedAttributes, sameResolved, resolvedFrom⟩ := both
  have namedResolved : ∀ entry ∈ resolved.classes, Named entry.2 := by
    rw [sameResolved]
    exact named
  refine (Draft.ensures_identifyClasses formedResolved namedResolved).yields.ends_bind fun identified both => ?_
  obtain ⟨identifying, formedIdentified, classes, sameIdentified⟩ := both
  have known : identified.observables = d.declared := by
    rw [sameIdentified, sameResolved]
    exact observables
  have flattened (flat : Fields) : Entries.get? "observable" identified.objects = some flat ↔
      Lineage.Flat .object d.objects.inner "observable" flat := by
    rw [sameIdentified, sameResolved]
    exact Draft.observable_shown relatedObjects flat
  by_cases colliding : d.Collides
  · rcases colliding with twice | ⟨flat, computed, o, member, present⟩
    · exact absurd distinct twice
    refine Act.ends_bind_of_fault fun run => ?_
    obtain ⟨report, after, stopped⟩ := Draft.listObservables_collides formedIdentified ((flattened flat).mpr computed)
      (known ▸ member) present run
    exact ⟨_, after, stopped, Or.inr ⟨flat, computed, o, member, present⟩, report, rfl⟩
  have fresh (object : Fields) (found : Entries.get? "observable" identified.objects = some object) :
      ∀ o ∈ identified.observables, Entries.has o.id (Draft.typeIds (Entries.attributes object)) = false := by
    intro o member
    refine Bool.eq_false_iff.mpr fun present => colliding (Or.inr ?_)
    exact ⟨object, (flattened object).mp found, o, known ▸ member, present⟩
  have captions : ∀ o ∈ identified.observables, Keyed o.caption := fun o member =>
    whole.keyed_caption (known ▸ member)
  have sited (object : Fields) (found : Entries.get? "observable" identified.objects = some object) :
      ∃ enums, AreSited (· ∈ Observable.ids d.declared) enums (Entries.attributes object) := by
    obtain ⟨enums, flat⟩ := Lineage.isFlat_of_flat ofObjects ((flattened object).mp found)
    exact ⟨enums, flat.attributes⟩
  refine (Draft.ensures_listObservables formedIdentified (known ▸ distinct) captions sited fresh).yields.ends_bind
    fun listed both => ?_
  obtain ⟨listing, formedListed, objects, sameListed⟩ := both
  refine (Act.ensures_forM fun entry member =>
    Draft.ensures_checkProfiles formedListed entry.1 (formedListed.classes entry member)).ends_bind fun _ _ => ?_
  refine (Act.ensures_forM fun entry member =>
    Draft.ensures_checkProfiles formedListed entry.1 (formedListed.objects entry member)).ends_bind fun _ _ => ?_
  refine (Draft.ensures_closeAllProfiles formedListed).yields.ends_bind fun closed both => ?_
  obtain ⟨closing, formedClosed, _, _, sameClosed⟩ := both
  refine (Act.ensures_lift (Draft.ensures_addDatetimeSiblings formedClosed)).yields.ends_bind fun dated both => ?_
  obtain ⟨dating, formedDated, _, _, sameDated⟩ := both
  refine (Act.ensures_forM fun entry member =>
    Draft.ensures_verify formedDated entry.1 (formedDated.classes entry member)).ends_bind fun _ _ => ?_
  refine (Act.ensures_forM fun entry member =>
    Draft.ensures_verify formedDated entry.1 (formedDated.objects entry member)).ends_bind fun _ _ => ?_
  refine (Draft.ensures_requireAll formedDated).yields.ends_bind fun required both => ?_
  obtain ⟨requiring, formedRequired, _, _, _, sameRequired⟩ := both
  refine (Act.ensures_lift (Draft.ensures_finish formedRequired)).yields.ends_bind fun finished both => ?_
  obtain ⟨finishing, formedFinished, _, _, _, sameFinished⟩ := both
  refine (Act.ensures_lift (Draft.ensures_graph formedFinished)).yields.ends fun graph both => ⟨colliding, ?_⟩
  let stages : Stages d graph := {
    rawClasses := d.classes.inner
    rawObjects := d.objects.inner
    start, flatClasses, flatObjects, resolved, identified, listed, closed, dated, required, finished
    readClasses, readObjects
    starting := Act.yields_lift.mp starting
    flattenClasses, flattenObjects, resolving, identifying, listing, closing
    dating := Act.yields_lift.mp dating
    requiring
    finishing := Act.yields_lift.mp finishing
    reading := Act.yields_lift.mp both.1 }
  refine ⟨stages, {
    readClasses := rfl
    readObjects := rfl
    observables := known
    resolved := ?_
    dictionary := formedResolved.attributes
    closed := formedClosed
    finished := formedFinished
    types := ?_ }⟩
  · change Draft.ResolvedFrom d.sharedAttributes resolved.attributes
    rw [sameResolved, ← attributes]
    exact resolvedFrom
  · change finished.types = d.sharedTypes
    calc finished.types
      _ = required.types := by rw [sameFinished]
      _ = dated.types := by rw [sameRequired]
      _ = closed.types := by rw [sameDated]
      _ = listed.types := by rw [sameClosed]
      _ = identified.types := by rw [sameListed]
      _ = resolved.types := by rw [sameIdentified]
      _ = start.types := by rw [sameResolved, Draft.hideItems]
      _ = d.sharedTypes := types

end Definitions.WellFormed

end EventSchema
