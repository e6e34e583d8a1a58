import EventSchema.Proofs.Graph.Finished
import EventSchema.Proofs.Graph.Outside
import EventSchema.Proofs.Order.Drafts
import EventSchema.Proofs.Order.Records

/-!
Builds from definitions in another order.

Every stage of a build treats the items one by one, with what it finds under the keys of the others. So
definitions whose classes, objects and profiles come in another order are built alike: both builds stop or
neither does, the graphs are the same up to the order, and the same problems are counted.
-/

set_option autoImplicit false

namespace EventSchema

open Value
open Act (Mirrors)

/-! ### Definitions -/

structure Definitions.Reordered (d other : Definitions) : Prop where
  version : other.version = d.version
  extensions : other.extensions = d.extensions
  categories : other.categories = d.categories
  dictionary : other.dictionary = d.dictionary
  classes : Value.Reordered d.classes other.classes
  objects : Value.Reordered d.objects other.objects
  profiles : Value.Reordered d.profiles other.profiles

/-- Definitions that are documents. Where a caption, or what an object refers by, is itself an object rather than
a text, it is in one place. -/
structure Definitions.Orderly (d : Definitions) : Prop extends d.Documents where
  classCaptions : Draft.WrittenCaptions d.classes.inner
  objectCaptions : Draft.WrittenCaptions d.objects.inner
  sharedCaptions : ∀ attributes types, d.shared = .ok (attributes, types) →
    Draft.WrittenCaptions attributes ∧ Draft.WrittenCaptions types
  referring : ∀ key mark item, Entries.get? key d.objects.inner = some (.object mark item) →
    ∀ entry ∈ Entries.attributes item, ∀ field ∈ Draft.referring, ∀ part,
      Entries.get? field entry.2.inner = some part → Plain part

namespace Definitions

variable {d other : Definitions}

theorem Reordered.symm (reordered : d.Reordered other) : other.Reordered d where
  version := reordered.version.symm
  extensions := reordered.extensions.symm
  categories := reordered.categories.symm
  dictionary := reordered.dictionary.symm
  classes := reordered.classes.symm
  objects := reordered.objects.symm
  profiles := reordered.profiles.symm

private theorem Reordered.shared_eq (reordered : d.Reordered other) : other.shared = d.shared := by
  unfold shared dictionaryFields
  rw [reordered.dictionary]

/-- Definitions as they are read from texts are orderly. -/
theorem orderly_of_written (categories : Written d.categories) (dictionary : Written d.dictionary)
    (classes : Written d.classes) (objects : Written d.objects) (profiles : Written d.profiles) : d.Orderly := by
  have captions {fields : Fields} (written : Written (.record fields)) : Draft.WrittenCaptions fields := by
    intro key value caption found named
    have own := (written_record.mp written).2 _ (Entries.mem_of_get? found)
    cases value with
    | object mark inner => exact (written_object.mp own).2.of_get? named
    | null | bool _ | int _ | float _ | text _ | array _ => cases named
  have inside {value : Value} (written : Written value) : Written (.record value.inner) := by
    cases value with
    | object mark fields => exact (written_object.mp written).2
    | null | bool _ | int _ | float _ | text _ | array _ => exact written_record.mpr ⟨.nil, List.forall_mem_nil _⟩
  refine { documents_of_written categories dictionary classes objects profiles with
    classCaptions := captions (inside classes)
    objectCaptions := captions (inside objects)
    sharedCaptions := ?_
    referring := ?_ }
  · intro attributes types shared
    obtain ⟨mark, own, fields, outer, shape, known, readOuter, readTypes⟩ := exists_of_shared shared
    have opened {value : Value} {fields : Fields} (written : Written value) (read : value.asFields = .ok fields) :
        Written (.record fields) := by
      obtain ⟨mark, rfl⟩ := inner_of_asFields read
      exact (written_object.mp written).2
    have whole := opened dictionary (by rw [shape, Value.asFields])
    exact ⟨captions (opened (whole.of_get? known) rfl),
      captions (opened ((opened (whole.orEmpty "types") readOuter).orEmpty _) readTypes)⟩
  · intro key mark item found entry member field _ part given
    have item := (written_object.mp ((inside objects).of_get? found)).2
    exact ((inside (item.attributes.of_mem member)).of_get? given).plain

private theorem Reordered.orderly (reordered : d.Reordered other) (orderly : d.Orderly) : other.Orderly := by
  have moved {items others : Value} (reordered : Value.Reordered items others) (keyed : Value.Keyed items) :
      Value.Keyed others := by
    cases reordered with
    | same => exact keyed
    | object perm => exact keyed_object.mpr ((keyed_object.mp keyed).perm perm)
  have classes := reordered.classes.get?_inner orderly.classes.inner.distinct
  have objects := reordered.objects.get?_inner orderly.objects.inner.distinct
  exact {
    categories := reordered.categories ▸ orderly.categories
    dictionary := reordered.dictionary ▸ orderly.dictionary
    classes := moved reordered.classes orderly.classes
    objects := moved reordered.objects orderly.objects
    profiles := moved reordered.profiles orderly.profiles
    singleClasses := fun key mark item found => orderly.singleClasses key mark item (classes key ▸ found)
    singleObjects := fun key mark item found => orderly.singleObjects key mark item (objects key ▸ found)
    classCaptions := fun key value caption found => orderly.classCaptions key value caption (classes key ▸ found)
    objectCaptions := fun key value caption found => orderly.objectCaptions key value caption (objects key ▸ found)
    sharedCaptions := reordered.shared_eq ▸ orderly.sharedCaptions
    referring := fun key mark item found => orderly.referring key mark item (objects key ▸ found) }

/-! ### The first draft -/

namespace Orderly

variable (orderly : d.Orderly) (reordered : d.Reordered other)
include orderly reordered

private theorem matched_observables {attributes types : Fields} (shared : d.shared = .ok (attributes, types)) :
    Matched (fun declared declared' => declared.Perm declared' ∧ ∀ o ∈ declared, Written o.caption)
      (d.observables types attributes) (other.observables types attributes) := by
  have dictionary (kind : Text) {entries : Fields} (keyed : Value.Keyed (.record entries))
      (captions : Draft.WrittenCaptions entries) :
      Draft.Gathers fun known => Draft.observablesOfDictionary kind known entries :=
    Draft.gathers_observablesOfDictionary kind fun entry member caption named =>
      captions entry.1 entry.2 caption (Entries.get?_of_mem keyed.distinct member) named
  obtain ⟨keyed, keyed'⟩ := orderly.toKeyed.shared shared
  obtain ⟨captions, captions'⟩ := orderly.sharedCaptions _ _ shared
  intro declared ran
  unfold observables at ran ⊢
  obtain ⟨inTypes, first, ran⟩ := bind_eq_ok.mp ran
  obtain ⟨inAttributes, second, ran⟩ := bind_eq_ok.mp ran
  obtain ⟨inClasses, third, last⟩ := bind_eq_ok.mp ran
  have none : (Observable.ids []).Nodup := List.nodup_nil
  obtain ⟨_, rfl, distinct, ofTypes, _⟩ := (dictionary "Dictionary Type" keyed' captions').ran none first
  obtain ⟨_, rfl, distinct', ofAttributes, _⟩ := (dictionary "Dictionary Attribute" keyed captions).ran distinct second
  obtain ⟨_, rfl, apart, ofClasses, _⟩ :=
    (Draft.gathers_observablesOfItems .eventClass orderly.classCaptions).ran distinct' third
  obtain ⟨_, rfl, _, ofObjects, _⟩ := (Draft.gathers_observablesOfItems .object orderly.objectCaptions).ran apart last
  obtain ⟨inClasses', third', perm, _⟩ := Draft.observablesOfItems_perm .eventClass reordered.classes orderly.classes
    orderly.classCaptions .rfl distinct' third
  obtain ⟨declared', last', perm', _⟩ := Draft.observablesOfItems_perm .object reordered.objects orderly.objects
    orderly.objectCaptions perm apart last
  rw [first, ok_bind, second, ok_bind, third', ok_bind]
  refine ⟨declared', last', perm', ?_⟩
  simp only [List.forall_mem_append]
  exact ⟨⟨⟨ofTypes, ofAttributes⟩, ofClasses⟩, ofObjects⟩

/-- Both builds start from the same draft, but for the order. -/
theorem matched_ofDefinitions (object : d.profiles.isObject = true) :
    Matched (Draft.Corresponds Eq) (Draft.ofDefinitions d) (Draft.ofDefinitions other) := by
  have based : Draft.holds other.classes "base_event" = Draft.holds d.classes "base_event" :=
    reordered.classes.member_eq orderly.classes.inner.distinct _
  have same : other.dictionaryFields = d.dictionaryFields := by
    unfold dictionaryFields
    rw [reordered.dictionary]
  unfold Draft.ofDefinitions
  rw [reordered.categories, same, based]
  refine (Matched.refl _).bind fun categories _ same => ?_
  subst same
  refine (Matched.refl _).both.bind fun parts _ ⟨same, opened, _⟩ => ?_
  subst same
  refine (Matched.refl _).bind fun based _ same => ?_
  subst same
  dsimp only
  split
  · exact .error _ _
  · refine (Matched.refl _).both.bind fun outer _ ⟨same, readOuter, _⟩ => ?_
    subst same
    refine (Matched.refl _).both.bind fun types _ ⟨same, readTypes, _⟩ => ?_
    subst same
    have shared : d.shared = .ok (parts.2, types) :=
      bind_eq_ok.mpr ⟨_, opened, bind_eq_ok.mpr ⟨outer, readOuter, bind_eq_ok.mpr ⟨types, readTypes, rfl⟩⟩⟩
    refine (orderly.matched_observables reordered shared).bind fun declared declared' ⟨perm, written⟩ => .pure ?_
    exact {
      object
      distinct := orderly.profiles.inner.distinct
      keyed := fun entry member => (orderly.toKeyed.shared shared).1.of_mem member
      written
      version := reordered.version
      extensions := reordered.extensions
      categories := rfl
      attributes := rfl
      types := rfl
      dictionaryExtras := rfl
      profiles := reordered.profiles
      classes := ⟨.nil, [], .nil, .nil⟩
      objects := ⟨.nil, [], .nil, .nil⟩
      observables := perm
      allClasses := .nil
      allObjects := .nil }

end Orderly

end Definitions

/-! ### The stages -/

private theorem Act.yields_forM {α : Type} {act : α → Act Unit} {items : List α} (ran : (items.forM act).Yields ()) :
    ∀ item ∈ items, (act item).Yields () := by
  intro item member
  rw [forM_eq_mapM] at ran
  obtain ⟨results, each, _⟩ := yields_bind ran
  obtain ⟨_, _, taken⟩ := exists_right_of_mem (yields_mapM each) member
  exact taken

private theorem Lineage.reorders_flattenAll (kind : ItemKind) {items others : Fields}
    (distinct : Entries.Distinct items)
    (perm : items.Perm others) : (flattenAll kind items).Mirrors (Entries.Reorders Eq) (flattenAll kind others) :=
  (mirrors_flattenAll kind distinct perm).yields.imp fun _ _ ⟨perm, ran, _⟩ =>
    .of_perm ((flattenAll_ok ran).distinct distinct) perm

structure Draft.Arranged (objects : Entries Fields) : Prop where
  captions : KeyedCaptions objects
  detached : ∀ key object, Entries.get? key objects = some object →
    ∀ entry ∈ Entries.attributes object, Detached entry.2

theorem Draft.Arranged.filter {objects : Entries Fields} (arranged : Arranged objects) (keep : Text → Bool) :
    Arranged (objects.filter fun entry => keep entry.1) := by
  have kept {key : Text} {object : Fields}
      (found : Entries.get? key (objects.filter fun entry => keep entry.1) = some object) :
      Entries.get? key objects = some object := by
    rw [Entries.get?_filter] at found
    split at found
    · exact found
    · cases found
  exact ⟨fun key object caption found => arranged.captions key object caption (kept found),
    fun key object found => arranged.detached key object (kept found)⟩

namespace Definitions.Orderly

variable {d other : Definitions} (orderly : d.Orderly)
include orderly

private theorem arranged {items : Fields} {flats : Entries Fields} (read : d.objects.asFields = .ok items)
    (ran : (Lineage.flattenAll .object items).Yields flats) : Draft.Arranged flats := by
  obtain ⟨mark, shape⟩ := inner_of_asFields read
  have keyed := orderly.objects.asFields read
  have single := orderly.singleObjects
  have referring := orderly.referring
  rw [shape] at single referring
  have inside {key : Text} {own : Option Nat} {item : Fields}
      (found : Entries.get? key items = some (.object own item)) :
      Value.Keyed (.record item) := keyed_object.mp (keyed.of_get? found)
  have flat {key : Text} {object : Fields} (found : Entries.get? key flats = some object) :
      Lineage.Flat .object items key object := by
    obtain ⟨_, _, computed⟩ := (Lineage.flattenAll_ok ran).get?_right found
    exact computed
  refine ⟨fun key object caption found named => ?_, fun key object found => ?_⟩
  · obtain ⟨name, own, item, present, given⟩ := (flat found).exists_raw (fun _ _ _ found => (inside found).distinct)
      (by decide) (by decide) (by decide) named
    exact (inside present).of_get? given
  · refine (Lineage.hereditary_detached fun key own item found entry member => ?_).flat (flat found)
    exact ⟨fun own field shape => single key _ item found entry member own field shape,
      (inside found).attributes.of_mem member, referring key own item found entry member⟩

private theorem mirrors_ofDefinitions (reordered : d.Reordered other) (object : d.profiles.isObject = true) :
    (Graph.ofDefinitions d).Mirrors Graph.Alike (Graph.ofDefinitions other) := by
  unfold Graph.ofDefinitions
  refine (Mirrors.lift (orderly.matched_ofDefinitions reordered object).both).bind
    fun start start' ⟨first, starting, _⟩ => ?_
  refine (Mirrors.lift (Matched.both fun _ => reordered.classes.asFields)).bind
    fun rawClasses rawClasses' ⟨perm, readClasses, _⟩ => ?_
  have keyedClasses := orderly.classes.asFields readClasses
  refine (Lineage.reorders_flattenAll .eventClass keyedClasses.distinct perm).yields.bind
    fun flatClasses flatClasses' ⟨inClasses, flattenClasses, _⟩ => ?_
  refine (Mirrors.lift (Matched.both fun _ => reordered.objects.asFields)).bind
    fun rawObjects rawObjects' ⟨perm', readObjects, _⟩ => ?_
  have keyedObjects := orderly.objects.asFields readObjects
  refine (Lineage.reorders_flattenAll .object keyedObjects.distinct perm').yields.bind
    fun flatObjects flatObjects' ⟨inObjects, flattenObjects, _⟩ => ?_
  have arranged := (orderly.arranged readObjects flattenObjects).filter fun key => !isHiddenObject key
  have flattened : Draft.Corresponds Eq { start with classes := flatClasses, objects := flatObjects }
      { start' with classes := flatClasses', objects := flatObjects' } :=
    { first with classes := inClasses, objects := inObjects }
  obtain ⟨_, shared, _⟩ := Draft.ofDefinitions_ok starting
  refine (flattened.hideItems.mirrors_resolveDictionary (orderly.toKeyed.shared shared).2 arranged.captions).yields.bind
    fun resolved resolved' ⟨corresponds, resolving, _⟩ => ?_
  obtain ⟨_, sameResolved⟩ := Draft.resolveDictionary_ok resolving
  refine corresponds.mirrors_identifyClasses.yields.bind fun identified identified' ⟨corresponds, identifying, _⟩ => ?_
  obtain ⟨_, sameIdentified, _⟩ := Draft.identifyClasses_ok identifying
  have sameObjects : identified.objects = flatObjects.filter fun entry => !isHiddenObject entry.1 := by
    rw [sameIdentified, sameResolved]
    rfl
  refine (corresponds.mirrors_listObservables corresponds.written (sameObjects ▸ arranged.detached)).yields.bind
    fun listed listed' ⟨corresponds, listing, _⟩ => ?_
  refine (corresponds.mirrors_checkProfiles .eventClass corresponds.classes).yields.bind
    fun _ _ ⟨_, checkedClasses, _⟩ => ?_
  refine (corresponds.mirrors_checkProfiles .object corresponds.objects).yields.bind
    fun _ _ ⟨_, checkedObjects, _⟩ => ?_
  have listedClasses := fun entry member =>
    Draft.listed_of_checkProfiles corresponds.object (Act.yields_forM checkedClasses entry member)
  have listedObjects := fun entry member =>
    Draft.listed_of_checkProfiles corresponds.object (Act.yields_forM checkedObjects entry member)
  refine (corresponds.mirrors_closeAllProfiles listedObjects listedClasses).yields.bind
    fun closed closed' ⟨corresponds, closing, _⟩ => ?_
  refine (Mirrors.lift corresponds.matched_addDatetimeSiblings.both).bind
    fun dated dated' ⟨corresponds, dating, _⟩ => ?_
  refine (corresponds.mirrors_verify .eventClass corresponds.classes).bind fun _ _ _ => ?_
  refine (corresponds.mirrors_verify .object corresponds.objects).bind fun _ _ _ => ?_
  refine corresponds.mirrors_requireAll.yields.bind fun required required' ⟨corresponds, requiring, _⟩ => ?_
  refine (Mirrors.lift corresponds.matched_finish.both).bind fun finished finished' ⟨corresponds, finishing, _⟩ => ?_
  refine Mirrors.lift fun graph reading => ?_
  let stages : Stages d graph := {
    rawClasses, rawObjects, start, flatClasses, flatObjects, resolved, identified, listed, closed, dated, required
    finished, readClasses, readObjects, starting, flattenClasses, flattenObjects, resolving, identifying, listing
    closing, dating, requiring, finishing, reading }
  obtain ⟨tidyClasses, tidyObjects⟩ := stages.tidy (Stages.keyedDocument_of_keyed keyedClasses)
    (Stages.keyedDocument_of_keyed keyedObjects)
  exact corresponds.matched_graph tidyClasses tidyObjects graph reading

end Definitions.Orderly

/-! ### Every build -/

/-- A build that gives a graph has profiles under keys. -/
theorem Stages.isObject_profiles {d : Definitions} {graph : Graph} (stages : Stages d graph) :
    d.profiles.isObject = true := by
  obtain ⟨_, _, _, start, _⟩ := Draft.ofDefinitions_ok stages.starting
  obtain ⟨_, _, _, same⟩ := stages.dated_eq
  have ran := stages.requiring
  unfold Draft.requireAll at ran
  obtain ⟨fields, opened, _⟩ := Act.yields_bind ran
  rw [same] at opened
  have read : stages.start.profiles.asFields = .ok fields := Act.yields_lift.mp opened
  rw [start] at read
  obtain ⟨mark, shape⟩ := inner_of_asFields read
  rw [shape]
  rfl

namespace Graph

variable {d other : Definitions}

/-- A build from definitions in another order comes to a graph if one does, to the same up to the order. -/
theorem mirrors_reordered (orderly : d.Orderly) (reordered : d.Reordered other) :
    (ofDefinitions d).Mirrors Alike (ofDefinitions other) := by
  intro run run' graph after alike ran
  obtain ⟨stages⟩ := exists_stages (.of_outcome ran)
  exact orderly.mirrors_ofDefinitions reordered stages.isObject_profiles run run' graph after alike ran

/-- A build does not depend on the order of classes, objects and profiles. It gives a graph in one order if
it does in the other. Then the graphs are the same up to the order of keys, of the names in lists of profiles
and of references under a key, and the same problems are counted. -/
theorem ofDefinitions_reordered (orderly : d.Orderly) (reordered : d.Reordered other) (run : Run) :
    ((∃ graph after, (ofDefinitions d).outcome run = (.ok graph, after)) ↔
      ∃ graph after, (ofDefinitions other).outcome run = (.ok graph, after)) ∧
    ∀ graph after graph' after', (ofDefinitions d).outcome run = (.ok graph, after) →
      (ofDefinitions other).outcome run = (.ok graph', after') →
      graph.Alike graph' ∧ after.diagnostics.Alike after'.diagnostics := by
  have mirrors := mirrors_reordered orderly reordered
  have mirrors' := mirrors_reordered (reordered.orderly orderly) reordered.symm
  refine ⟨⟨?_, ?_⟩, ?_⟩
  · rintro ⟨graph, after, ran⟩
    obtain ⟨graph', after', ended, _⟩ := mirrors run run graph after (.refl _) ran
    exact ⟨graph', after', ended⟩
  · rintro ⟨graph, after, ran⟩
    obtain ⟨graph', after', ended, _⟩ := mirrors' run run graph after (.refl _) ran
    exact ⟨graph', after', ended⟩
  · intro graph after graph' after' ran ran'
    obtain ⟨result, last, ended, alike, counted⟩ := mirrors run run graph after (.refl _) ran
    cases ended.symm.trans ran'
    exact ⟨alike, counted⟩

/-- An item with one profile and attributes that the dictionary tells of. -/
def profiled (profile : Text) (names : List Text) : Value :=
  .record [("profiles", .array [.text profile]),
    ("attributes", .record (names.map fun name => (name, .record [("requirement", .text "optional")])))]

/-- Two objects that refer to each other, and one each beside that. -/
def knot : Definitions where
  version := .text "1.0.0"
  categories := .record []
  dictionary := .record [("attributes", .record [
    ("device", .record [("type", .text "device")]), ("user", .record [("type", .text "user")]),
    ("session", .record [("type", .text "session")]), ("group", .record [("type", .text "group")])])]
  classes := .record [("base_event", profiled "cloud" ["device"]), ("login", .record [("extends", .text "base_event")])]
  objects := .record [("device", profiled "host" ["user", "session"]), ("user", profiled "person" ["device", "group"]),
    ("session", profiled "network" []), ("group", profiled "team" [])]
  profiles := .record [("cloud", .record []), ("host", .record []), ("person", .record []), ("network", .record []),
    ("team", .record [])]
  extensions := []

/-- Definitions with all their items in the opposite order. -/
def backwards (d : Definitions) : Definitions :=
  { d with
    classes := .record d.classes.inner.reverse
    objects := .record d.objects.inner.reverse
    profiles := .record d.profiles.inner.reverse }

def profilesOfObject (key : Text) (graph : Graph) : Option (List Value) :=
  (Entries.get? key graph.objects).map Entity.profiles

/-- The order in which two objects that refer to each other are consolidated shows in the order of the names
that the first of them lists. -/
theorem ofDefinitions_reordered_knot : ∃ graph after graph' after',
    (ofDefinitions knot).outcome {} = (.ok graph, after) ∧
    (ofDefinitions (backwards knot)).outcome {} = (.ok graph', after') ∧
    profilesOfObject "device" graph = some [.text "host", .text "person", .text "team", .text "network"] ∧
    profilesOfObject "device" graph' = some [.text "host", .text "person", .text "network", .text "team"] ∧
    graph.Alike graph' ∧ after.diagnostics.Alike after'.diagnostics := by
  have orderly : knot.Orderly :=
    Definitions.orderly_of_written (by decide) (by decide) (by decide) (by decide) (by decide)
  have reordered : knot.Reordered (backwards knot) :=
    ⟨rfl, rfl, rfl, rfl, .object (List.reverse_perm _).symm, .object (List.reverse_perm _).symm,
      .object (List.reverse_perm _).symm⟩
  have first : ((ofDefinitions knot).outcome {}).1.toOption.map (profilesOfObject "device") =
      some (some [.text "host", .text "person", .text "team", .text "network"]) := by
    decide +kernel
  have second : ((ofDefinitions (backwards knot)).outcome {}).1.toOption.map (profilesOfObject "device") =
      some (some [.text "host", .text "person", .text "network", .text "team"]) := by
    decide +kernel
  cases ran : (ofDefinitions knot).outcome {} with
  | mk outcome after =>
      cases ran' : (ofDefinitions (backwards knot)).outcome {} with
      | mk outcome' after' =>
          rw [ran] at first
          rw [ran'] at second
          cases outcome with
          | error fault => cases first
          | ok graph =>
              cases outcome' with
              | error fault => cases second
              | ok graph' =>
                  exact ⟨graph, after, graph', after', rfl, rfl, Option.some.inj first, Option.some.inj second,
                    (ofDefinitions_reordered orderly reordered {}).2 graph after graph' after' ran ran'⟩

end Graph

end EventSchema
