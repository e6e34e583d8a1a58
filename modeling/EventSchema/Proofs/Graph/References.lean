import EventSchema.Graph.Query
import EventSchema.Proofs.Draft.Attributes
import EventSchema.Proofs.Draft.Classes
import EventSchema.Proofs.Draft.Datetime
import EventSchema.Proofs.Draft.Links
import EventSchema.Proofs.Draft.Profiles
import EventSchema.Proofs.Graph.Stages
import EventSchema.Proofs.Lineage.Attributes

/-!
The references of a graph are those that its classes and objects make.

No stage of a build makes a key come twice among the items or a name among the attributes of one, and
once the profiles are closed none of an item comes twice. So the references of the last draft are told
by its items one by one, and the records of the graph are read from these same items.
-/

set_option autoImplicit false

namespace EventSchema

/-- Items of a document: no key comes twice, and no name among the attributes of an item. -/
structure KeyedDocument (items : Fields) : Prop where
  keys : Entries.Distinct items
  names : ∀ key mark item, (key, .object mark item) ∈ items →
    Entries.Distinct (Entries.attributes item)

theorem KeyedDocument.singleton {key : Text} {mark : Option Nat} {item : Fields}
    (names : Entries.Distinct (Entries.attributes item)) :
    KeyedDocument [(key, .object mark item)] where
  keys := List.nodup_singleton key
  names other mark' item' member := by
    cases List.mem_singleton.mp member
    exact names

/-- Items of a draft: no key comes twice, and no name among the attributes of an item. -/
structure KeyedItems (items : Entries Fields) : Prop where
  keys : Entries.Distinct items
  names : ∀ entry ∈ items, Entries.Distinct (Entries.attributes entry.2)

namespace KeyedItems

variable {items results : Entries Fields}

theorem filter (keyed : KeyedItems items) (keep : Text × Fields → Bool) :
    KeyedItems (items.filter keep) where
  keys := keyed.keys.filter keep
  names entry member := keyed.names entry (List.mem_of_mem_filter member)

theorem put (keyed : KeyedItems items) (key : Text) {item : Fields}
    (names : Entries.Distinct (Entries.attributes item)) : KeyedItems (Entries.put key item items) where
  keys := keyed.keys.put key item
  names entry member := by
    rcases Entries.mem_of_mem_put member with written | before
    · rw [written]
      exact names
    · exact keyed.names entry before

/-- A stage that treats the items one by one keeps them keyed if it keeps the names of each. -/
theorem related {relation : Text → Fields → Fields → Prop} (keyed : KeyedItems items)
    (treated : Entries.Related relation items results)
    (kept : ∀ key item result, relation key item result →
      Entries.Distinct (Entries.attributes item) → Entries.Distinct (Entries.attributes result)) :
    KeyedItems results where
  keys := treated.distinct keyed.keys
  names entry member := by
    obtain ⟨origin, before, step⟩ := treated.mem_right member
    exact kept _ _ _ step (keyed.names _ before)

theorem of_get? (keyed : KeyedItems items) {key : Text} {item : Fields}
    (found : Entries.get? key items = some item) : Entries.Distinct (Entries.attributes item) :=
  keyed.names _ (Entries.mem_of_get? found)

end KeyedItems

/-! ### The items stay keyed -/

theorem KeyedDocument.flattened {kind : ItemKind} {items : Fields} {flats : Entries Fields}
    (keyed : KeyedDocument items) (ran : (Lineage.flattenAll kind items).Yields flats) :
    KeyedItems flats := by
  have flat := Lineage.flattenAll_ok ran
  have hereditary := Lineage.hereditary_distinct fun key mark item found =>
    keyed.names key mark item (Entries.mem_of_get? found)
  constructor
  · exact flat.distinct keyed.keys
  · intro entry member
    obtain ⟨_, _, computed⟩ := flat.mem_right member
    exact hereditary.flat computed

namespace Draft

theorem Retouched.distinct {source : Text} {before after : Fields}
    (retouched : Retouched source before after) (distinct : Entries.Distinct before) : Entries.Distinct after := by
  induction retouched with
  | same => exact distinct
  | field name earlier written wrote ih => exact ih.put _ _
  | source name earlier ih =>
      unfold setSource
      split
      · exact ih.put _ _
      · exact ih

/-- What a finished draft has: keyed items, none with a profile twice. -/
structure Tidy (items : Entries Fields) : Prop where
  keyed : KeyedItems items
  apart : ∀ entry ∈ items, Value.Apart (Entries.profiles entry.2)

theorem Tidy.related {relation : Text → Fields → Fields → Prop} {items results : Entries Fields}
    (tidy : Tidy items) (treated : Entries.Related relation items results)
    (names : ∀ key item result, relation key item result →
      Entries.Distinct (Entries.attributes item) → Entries.Distinct (Entries.attributes result))
    (profiles : ∀ key item result, relation key item result →
      Value.Apart (Entries.profiles item) → Value.Apart (Entries.profiles result)) :
    Tidy results where
  keyed := tidy.keyed.related treated names
  apart entry member := by
    obtain ⟨origin, before, step⟩ := treated.mem_right member
    exact profiles _ _ _ step (tidy.apart _ before)

private theorem apart_closeProfiles {draft : Draft} {kind : ItemKind} {key : Text}
    {item closed : Fields} (ran : (closeProfiles draft kind key item).Yields closed) :
    Value.Apart (Entries.profiles closed) := by
  obtain ⟨_, _, _, _, closedProfiles, _⟩ := closeProfiles_ok ran
  rw [closedProfiles]
  exact Value.Apart.addNew List.Pairwise.nil _

private theorem tidy_closeAllProfiles {draft closed : Draft} (classes : KeyedItems draft.classes)
    (objects : KeyedItems draft.objects) (ran : draft.closeAllProfiles.Yields closed) :
    Tidy closed.classes ∧ Tidy closed.objects := by
  obtain ⟨objects', classes', same, ⟨keys, keyed, treated⟩, each⟩ := closeAllProfiles_ok
    (motive := fun done items => Entries.keys items = Entries.keys draft.objects ∧
      KeyedItems items ∧
      ∀ key ∈ done, ∀ item, Entries.get? key items = some item →
        Value.Apart (Entries.profiles item))
    ran ⟨rfl, objects, fun _ none => absurd none List.not_mem_nil⟩
    (by
      rintro done key items item result ⟨keys, keyed, treated⟩ found closing
      refine ⟨?_, ?_, ?_⟩
      · rw [Entries.keys_put, if_pos, keys]
        rw [Entries.has, found]
        rfl
      · apply keyed.put
        rw [attributes_closeProfiles closing]
        exact keyed.of_get? found
      · intro other member entry held
        rw [Entries.get?_put] at held
        by_cases here : other = key
        · rw [if_pos here, Option.some.injEq] at held
          rw [← held]
          exact apart_closeProfiles closing
        · rw [if_neg here] at held
          have before : other ∈ done := by
            rcases List.mem_append.mp member with old | single
            · exact old
            · exact absurd (List.mem_singleton.mp single) here
          exact treated other before entry held)
    (by
      rintro done key items ⟨keys, keyed, treated⟩ absent
      refine ⟨keys, keyed, ?_⟩
      intro other member entry held
      rcases List.mem_append.mp member with old | single
      · exact treated other old entry held
      · rw [List.mem_singleton.mp single, absent] at held
        cases held)
  rw [same]
  constructor
  · constructor
    · exact classes.related each fun key item result closing distinct => by
        rw [attributes_closeProfiles closing]
        exact distinct
    · intro entry member
      obtain ⟨_, _, closing⟩ := each.mem_right member
      exact apart_closeProfiles closing
  · refine ⟨keyed, ?_⟩
    intro entry member
    have held := Entries.get?_of_mem keyed.keys member
    refine treated entry.1 ?_ entry.2 held
    rw [← keys]
    exact Entries.mem_keys_of_get? held

private theorem tidy_addSiblings {draft : Draft} {items results : Entries Fields} (tidy : Tidy items)
    (treated : Entries.Related (fun _ item result => draft.addSiblings item = .ok result)
      items results) : Tidy results := by
  refine tidy.related treated ?_ ?_
  · intro key item result ran distinct
    obtain ⟨siblings, _, attributes, _, _⟩ := addSiblings_ok ran
    rw [attributes]
    exact distinct_withSiblings distinct siblings
  · intro key item result ran apart
    obtain ⟨siblings, _, _, profiles, _⟩ := addSiblings_ok ran
    rw [profiles]
    split
    · exact apart
    · exact Value.Apart.addNew List.Pairwise.nil _

theorem profiles_of_frame {item result : Fields}
    (frame : ∀ field : Text, field ≠ "attributes" →
      Entries.get? field result = Entries.get? field item) :
    Entries.profiles result = Entries.profiles item := by
  rw [Entries.profiles, frame "profiles" (by decide), Entries.profiles]

private theorem tidy_requireItems {kind : ItemKind} {items results : Entries Fields} (tidy : Tidy items)
    (treated : Entries.Related (fun key item result => ∃ missing,
      requireItem kind key item = .ok (result, missing)) items results) : Tidy results := by
  refine tidy.related treated ?_ ?_
  · rintro key item result ⟨missing, ran⟩ distinct
    exact (requireItem_ok ran).1.distinct distinct
  · rintro key item result ⟨missing, ran⟩ apart
    rw [profiles_of_frame (requireItem_ok ran).2]
    exact apart

private theorem tidy_finishItems {draft : Draft} {items results : Entries Fields} (tidy : Tidy items)
    (treated : Entries.Related (fun _ item result => draft.finishItem item = .ok result)
      items results) : Tidy results := by
  refine tidy.related treated ?_ ?_
  · intro key item result ran distinct
    exact (finishItem_ok ran).1.distinct distinct
  · intro key item result ran apart
    rw [profiles_of_frame (finishItem_ok ran).2]
    exact apart

end Draft

theorem Stages.tidy {d : Definitions} {graph : Graph} (stages : Stages d graph)
    (classes : KeyedDocument stages.rawClasses) (objects : KeyedDocument stages.rawObjects) :
    Draft.Tidy stages.finished.classes ∧ Draft.Tidy stages.finished.objects := by
  have flatClasses := classes.flattened stages.flattenClasses
  have flatObjects := objects.flattened stages.flattenObjects
  obtain ⟨_, resolved⟩ := Draft.resolveDictionary_ok stages.resolving
  have identified : KeyedItems stages.identified.classes ∧ KeyedItems stages.identified.objects := by
    obtain ⟨identified, same, each⟩ := Draft.identifyClasses_ok stages.identifying
    rw [same]
    rw [resolved] at each ⊢
    constructor
    · exact (flatClasses.filter _).related each fun key item result ran =>
        (Draft.identify_ok ran).1.distinct
    · exact flatObjects.filter _
  have listed : KeyedItems stages.listed.classes ∧ KeyedItems stages.listed.objects := by
    rcases Draft.listObservables_ok stages.listing with ⟨_, same⟩ | ⟨object, _, _, _, found, own, _, _, same⟩
    · rw [same]
      exact identified
    · rw [same]
      refine ⟨identified.1, identified.2.put "observable" ?_⟩
      rw [Entries.attributes_put_record, Entries.Distinct, Value.putShared,
        Value.keys_refreshFields]
      have distinct := identified.2.of_get? found
      rw [Draft.attributes_of_ok own] at distinct
      exact distinct.put _ _
  have closed := Draft.tidy_closeAllProfiles listed.1 listed.2 stages.closing
  have dated : Draft.Tidy stages.dated.classes ∧ Draft.Tidy stages.dated.objects := by
    rcases Draft.addDatetimeSiblings_ok stages.dating with ⟨_, same⟩ | ⟨_, _, _, same, each, other⟩
    · rw [same]
      exact closed
    · rw [same]
      exact ⟨Draft.tidy_addSiblings closed.1 each, Draft.tidy_addSiblings closed.2 other⟩
  obtain ⟨_, _, _, required, each, other⟩ := Draft.requireAll_ok stages.requiring
  have requiredTidy := And.intro (Draft.tidy_requireItems dated.1 each)
    (Draft.tidy_requireItems dated.2 other)
  obtain ⟨_, _, _, finished, last, lastOther⟩ := Draft.finish_ok stages.finishing
  rw [finished]
  rw [required] at last lastOther
  exact ⟨Draft.tidy_finishItems requiredTidy.1 last, Draft.tidy_finishItems requiredTidy.2 lastOther⟩

/-! ### Entities and the items that they are read from -/

def Entity.attributesTo (object : Text) (entity : Entity) : List Text :=
  Entries.keys (entity.attributes.filter fun entry =>
    entry.2.type = .text "object_t" ∧ entry.2.objectType = .text object)

structure ReadsItem (key : Text) (item : Fields) (entity : Entity) : Prop where
  key : entity.key = key
  attributes : entity.attributes = Attribute.ofValues (Entries.attributes item)
  profiles : entity.profiles = Entries.profiles item

theorem readsItem_of_ok {key : Text} {kind : ItemKind} {item : Fields} {entity : Entity}
    (ran : Entity.ofFields key kind item = .ok entity) : ReadsItem key item entity := by
  unfold Entity.ofFields at ran
  obtain ⟨profiles, listed, ran⟩ := bind_eq_ok.mp ran
  obtain ⟨attributes, opened, ran⟩ := bind_eq_ok.mp ran
  obtain ⟨_, _, ran⟩ := bind_eq_ok.mp ran
  obtain ⟨fields, read, same⟩ := map_eq_ok.mp opened
  rw [← pure_eq_ok.mp ran]
  constructor
  · rfl
  · rw [← same, Lineage.attributes_of_fieldsOrNone read]
  · exact (Entries.profiles_of_ok listed).symm

theorem ofValues_cons (name : Text) (mark : Option Nat) (field rest : Fields) :
    Attribute.ofValues ((name, .object mark field) :: rest) =
      (name, Attribute.ofFields name field) :: Attribute.ofValues rest := rfl

/-- If every attribute of an item is an object, its records have the same names, and the same of them
refer to an object. -/
theorem names_ofValues {attributes : Fields}
    (objects : ∀ entry ∈ attributes, entry.2.isObject = true) :
    Entries.keys (Attribute.ofValues attributes) = Entries.keys attributes ∧
      ∀ object, Entries.keys ((Attribute.ofValues attributes).filter fun entry =>
        entry.2.type = .text "object_t" ∧ entry.2.objectType = .text object) =
          Links.namesTo object attributes := by
  induction attributes with
  | nil => exact ⟨rfl, fun _ => rfl⟩
  | cons head rest ih =>
      obtain ⟨name, value⟩ := head
      have first := objects (name, value) (List.mem_cons_self ..)
      obtain ⟨keys, names⟩ := ih fun entry member => objects entry (List.mem_cons_of_mem _ member)
      cases value with
      | object mark field =>
          rw [ofValues_cons]
          refine ⟨congrArg (name :: ·) keys, fun object => ?_⟩
          have itself : Links.refersTo object (.object mark field) =
              decide ((Attribute.ofFields name field).type = .text "object_t" ∧
                (Attribute.ofFields name field).objectType = .text object) := rfl
          rw [Links.namesTo, List.filter_cons, List.filter_cons, itself]
          split
          · exact congrArg (name :: ·) (names object)
          · exact names object
      | null | bool _ | int _ | float _ | text _ | array _ => cases first

structure ReadsMember (member : Member Fields) (entity : Member Entity) : Prop where
  group : entity.group = member.group
  item : ReadsItem member.key member.item entity.item

theorem readsMembers {classes objects : Entries Fields} {entities others : Entries Entity}
    (readClasses : Entries.Related (fun key item entity =>
      Entity.ofFields key .eventClass item = .ok entity) classes entities)
    (readObjects : Entries.Related (fun key item entity =>
      Entity.ofFields key .object item = .ok entity) objects others) :
    List.Forall₂ ReadsMember (members classes objects) (members entities others) := by
  apply List.rel_append
  · refine List.forall₂_map_left_iff.mpr (List.forall₂_map_right_iff.mpr (List.Forall₂.imp ?_ readClasses))
    rintro entry entity ⟨key, ran⟩
    exact ⟨by rw [key], readsItem_of_ok ran⟩
  · refine List.forall₂_map_left_iff.mpr (List.forall₂_map_right_iff.mpr (List.Forall₂.imp ?_ readObjects))
    rintro entry entity ⟨key, ran⟩
    exact ⟨rfl, readsItem_of_ok ran⟩

namespace ReadsMember

variable {items : List (Member Fields)} {entities : List (Member Entity)}

theorem names {member : Member Fields} {entity : Member Entity} (reads : ReadsMember member entity)
    (objects : ∀ entry ∈ Entries.attributes member.item, entry.2.isObject = true) :
    Entries.keys entity.item.attributes = Entries.keys (Entries.attributes member.item) ∧
      ∀ object, entity.item.attributesTo object =
        Links.namesTo object (Entries.attributes member.item) := by
  unfold Entity.attributesTo
  rw [reads.item.attributes]
  exact names_ofValues objects

private theorem links_filter (reads : List.Forall₂ ReadsMember items entities)
    {chosen : Member Fields → Bool} {shown : Member Entity → Bool}
    (same : ∀ member entity, member ∈ items → ReadsMember member entity →
      chosen member = shown entity) :
    ((items.filter chosen).map Links.linkTo).map (fun link => (link.group, link.type)) =
      (entities.filter shown).map fun entity => (entity.group, entity.item.key) := by
  induction reads with
  | nil => rfl
  | cons first later ih =>
      rw [List.filter_cons, List.filter_cons, same _ _ (List.mem_cons_self ..) first]
      have rest := ih fun member entity before =>
        same member entity (List.mem_cons_of_mem _ before)
      split
      · rw [List.map_cons, List.map_cons, List.map_cons, rest, first.group, first.item.key]
        rfl
      · exact rest

private theorem links_reference (reads : List.Forall₂ ReadsMember items entities) (object : Text)
    (objects : ∀ member ∈ items, ∀ entry ∈ Entries.attributes member.item,
      entry.2.isObject = true) :
    (Entries.values (items.flatMap fun member => Links.reference (Links.linkTo member)
        (Links.namesTo object (Entries.attributes member.item)))).map
        (fun link => (link.group, link.type, link.attributeKeys)) =
      (entities.filter fun entity => entity.item.attributesTo object ≠ []).map
        fun entity => (entity.group, entity.item.key, entity.item.attributesTo object) := by
  induction reads with
  | nil => rfl
  | @cons member entity items entities first later ih =>
      have rest := ih fun member before => objects member (List.mem_cons_of_mem _ before)
      have names := (first.names (objects member (List.mem_cons_self ..))).2 object
      rw [List.flatMap_cons, List.filter_cons, Entries.values, List.map_append, List.map_append,
        ← names, Links.reference]
      rw [Entries.values] at rest
      by_cases none : entity.item.attributesTo object = []
      · rw [if_pos none, if_neg (by simp [none])]
        exact rest
      · have itself : (entity.group, entity.item.key, entity.item.attributesTo object) =
            (member.group, member.key, entity.item.attributesTo object) := by
          rw [first.group, first.item.key]
        rw [if_neg none, if_pos (by simp [none]), rest]
        exact congrArg (· :: _) itself.symm

private theorem pairs_eq (reads : List.Forall₂ ReadsMember items entities) :
    (entities.map fun entity => (entity.group, entity.item.key)) =
      items.map fun member => (member.group, member.key) := by
  induction reads with
  | nil => rfl
  | cons first later ih => rw [List.map_cons, List.map_cons, ih, first.group, first.item.key]

end ReadsMember

theorem forall_members {α : Type} {classes objects : Entries α} (holds : α → Prop)
    (inClasses : ∀ entry ∈ classes, holds entry.2) (inObjects : ∀ entry ∈ objects, holds entry.2) :
    ∀ member ∈ members classes objects, holds member.item := by
  intro member present
  rcases List.mem_append.mp present with first | last
  · obtain ⟨entry, known, same⟩ := List.mem_map.mp first
    exact same ▸ inClasses entry known
  · obtain ⟨entry, known, same⟩ := List.mem_map.mp last
    exact same ▸ inObjects entry known

namespace Graph

def members (graph : Graph) : List (Member Entity) := EventSchema.members graph.classes graph.objects

private theorem referencedBy_text (graph : Graph) (object : Text) :
    graph.referencedBy (.text object) = .ok (Entries.values (graph.links.toObject object)) := by
  unfold referencedBy indexed Links.toObject
  cases Index.get? (.text object) graph.links.objects <;> rfl

/-- The references of a graph are exact. All classes and objects differ in their group or key, and no
name comes twice among the attributes of one. Those that refer to an object are found with the names
of the attributes that do, those that have an attribute or a profile are found under it, each once and
in the order of the graph, and no others are. -/
theorem references_exact {d : Definitions} {graph : Graph}
    (classes : ∀ items, d.classes.asFields = .ok items → KeyedDocument items)
    (objects : ∀ items, d.objects.asFields = .ok items → KeyedDocument items)
    (built : (Graph.ofDefinitions d).Yields graph) :
    (graph.members.map fun member => (member.group, member.item.key)).Nodup ∧
    (∀ member ∈ graph.members, Entries.Distinct member.item.attributes) ∧
    (∀ object : Text, ∃ links, graph.referencedBy (.text object) = .ok links ∧
      links.map (fun link => (link.group, link.type, link.attributeKeys)) =
        (graph.members.filter fun member => member.item.attributesTo object ≠ []).map
          fun member => (member.group, member.item.key, member.item.attributesTo object)) ∧
    (∀ name : Text, ∃ links, graph.attributeUsedBy (.text name) = .ok links ∧
      links.map (fun link => (link.group, link.type)) =
        (graph.members.filter fun member => name ∈ Entries.keys member.item.attributes).map
          fun member => (member.group, member.item.key)) ∧
    ∀ profile : Text, ∃ links, graph.profileUsedBy (.text profile) = .ok links ∧
      links.map (fun link => (link.group, link.type)) =
        (graph.members.filter fun member => .text profile ∈ member.item.profiles).map
          fun member => (member.group, member.item.key) := by
  obtain ⟨stages⟩ := exists_stages built
  obtain ⟨tidyClasses, tidyObjects⟩ := stages.tidy (classes _ stages.readClasses)
    (objects _ stages.readObjects)
  obtain ⟨linked, readClasses, readObjects⟩ := Draft.graph_ok stages.reading
  have reads := readsMembers readClasses readObjects
  have distinct : ∀ member ∈ EventSchema.members stages.finished.classes stages.finished.objects,
      Entries.Distinct (Entries.attributes member.item) :=
    forall_members (fun item => Entries.Distinct (Entries.attributes item))
      tidyClasses.keyed.names tidyObjects.keyed.names
  have apart : ∀ member ∈ EventSchema.members stages.finished.classes stages.finished.objects,
      Value.Apart (Entries.profiles member.item) :=
    forall_members (fun item => Value.Apart (Entries.profiles item)) tidyClasses.apart
      tidyObjects.apart
  have told := Links.nodup_groupKey tidyClasses.keyed.keys tidyObjects.keyed.keys
  obtain ⟨users, profiled, referrers⟩ := Links.ofItems_ok distinct apart told linked
  have fields : ∀ member ∈ EventSchema.members stages.finished.classes stages.finished.objects,
      ∀ entry ∈ Entries.attributes member.item, entry.2.isObject = true :=
    fun member present => (Links.readable_of_ofItems linked member present).1
  refine ⟨?_, ?_, ?_, ?_, ?_⟩
  · rw [members, ReadsMember.pairs_eq reads]
    apply List.Nodup.of_map fun pair : Text × Text => pair.1 ++ ":" ++ pair.2
    rw [List.map_map]
    exact told
  · intro member shown
    obtain ⟨origin, before, read⟩ := exists_left_of_mem reads shown
    rw [Entries.Distinct, (read.names (fields origin before)).1]
    exact distinct origin before
  · intro object
    refine ⟨_, graph.referencedBy_text object, ?_⟩
    rw [referrers, ReadsMember.links_reference reads object fields, members]
  · intro name
    refine ⟨_, rfl, ?_⟩
    change (graph.links.ofAttribute name).map _ = _
    rw [users]
    refine ReadsMember.links_filter reads ?_
    intro member entity before read
    rw [(read.names (fields member before)).1]
  · intro profile
    refine ⟨_, rfl, ?_⟩
    change (graph.links.ofProfile profile).map _ = _
    rw [profiled]
    refine ReadsMember.links_filter reads ?_
    intro member entity before read
    rw [read.item.profiles]

/-- An attribute that the dictionary knows nothing else of. -/
def plainAttribute : Value := .record [("requirement", .text "optional")]

/-- A class and an object of the same name. The class has two attributes for the object, which has one
for itself. -/
def namesakes : Definitions where
  version := .text "1.0.0"
  categories := .record []
  dictionary := .record [("attributes", .record [
    ("first", .record [("type", .text "base_event")]),
    ("second", .record [("type", .text "base_event")])])]
  classes := .record [("base_event", .record [
    ("attributes", .record [
      ("second", plainAttribute), ("class_uid", plainAttribute), ("class_name", plainAttribute),
      ("type_uid", plainAttribute), ("first", plainAttribute)])])]
  objects := .record [("base_event", .record [
    ("profiles", .array [.text "host", .text "host"]),
    ("attributes", .record [("first", plainAttribute)])])]
  profiles := .record []
  extensions := []

theorem references_exact_namesakes :
    ∃ graph, (Graph.ofDefinitions namesakes).Yields graph ∧
      (∃ links, graph.referencedBy (.text "base_event") = .ok links ∧
        links.map (fun link => (link.group, link.type, link.attributeKeys)) =
          ([("common", "base_event", ["second", "first"]), ("object", "base_event", ["first"])] :
            List (Text × Text × List Text))) ∧
      ∃ links, graph.profileUsedBy (.text "host") = .ok links ∧
        links.map (fun link => (link.group, link.type)) =
          ([("common", "base_event"), ("object", "base_event")] : List (Text × Text)) := by
  have evaluated : ((Graph.ofDefinitions namesakes).outcome {}).1.toOption.map (fun graph =>
      ((graph.members.filter fun member => member.item.attributesTo "base_event" ≠ []).map
        (fun member => (member.group, member.item.key, member.item.attributesTo "base_event")),
      (graph.members.filter fun member => .text "host" ∈ member.item.profiles).map
        fun member => (member.group, member.item.key))) =
      (some ([("common", "base_event", ["second", "first"]), ("object", "base_event", ["first"])],
        [("common", "base_event"), ("object", "base_event")]) :
        Option (List (Text × Text × List Text) × List (Text × Text))) := by
    decide +kernel
  cases ran : (Graph.ofDefinitions namesakes).outcome {} with
  | mk outcome after =>
      rw [ran] at evaluated
      cases outcome with
      | error fault => cases evaluated
      | ok graph =>
          have built := Act.Yields.of_outcome ran
          have classes : ∀ items, namesakes.classes.asFields = .ok items → KeyedDocument items := by
            rintro items ⟨⟩
            exact KeyedDocument.singleton (by decide)
          have objects : ∀ items, namesakes.objects.asFields = .ok items → KeyedDocument items := by
            rintro items ⟨⟩
            exact KeyedDocument.singleton (by decide)
          obtain ⟨_, _, referrers, _, profiled⟩ := references_exact classes objects built
          have shown := Prod.mk.inj (Option.some.inj evaluated)
          obtain ⟨links, asked, same⟩ := referrers "base_event"
          obtain ⟨others, askedOthers, sameOthers⟩ := profiled "host"
          exact ⟨graph, built, ⟨links, asked, same.trans shown.1⟩,
            ⟨others, askedOthers, sameOthers.trans shown.2⟩⟩

end Graph

end EventSchema
