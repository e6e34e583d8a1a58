import EventSchema.Proofs.Draft.Closure
import EventSchema.Proofs.Graph.References

/-!
How far the profiles of a graph are closed.

The profiles are closed along the references between items as they are before the siblings of
timestamps are added, and every attribute that is there by then is finished to the same reference. So
an item of the graph has all profiles of an object that it refers to, but for the one that an object
gets together with such a sibling.
-/

set_option autoImplicit false

namespace EventSchema

structure AuthoredDocument (items : Fields) : Prop extends KeyedDocument items where
  named : ∀ key ∈ Entries.keys items, (Value.text key).truthy = true
  fresh : ∀ key mark item, (key, .object mark item) ∈ items →
    Value.given (Entries.get? "_resolved" item) = false
  attributes : ∀ key mark item, (key, .object mark item) ∈ items →
    ∀ name own field, (name, .object own field) ∈ Entries.attributes item →
      own = none ∧ Entries.Distinct field ∧ Entries.get? "_source" field = none

/-! ### Sources -/

namespace Draft

def Sourced : Value → Prop := SourcedIf fun _ => True

theorem Sourced.referring {value : Value} (sourced : Sourced value) : Referring value := by
  intro mark field shape
  obtain ⟨unmarked, distinct, source⟩ := sourced mark field shape
  exact ⟨unmarked, distinct, fun _ => source trivial⟩

namespace SourcedIf

variable {asked : Fields → Prop} {value : Value}

theorem of_not_object (plain : value.isObject = false) : SourcedIf asked value := by
  rintro mark field rfl
  cases plain

/-- A change of marked objects elsewhere leaves an attribute in one place with its source. -/
theorem refresh (sourced : SourcedIf asked value) (known : Value.Occurrences)
    (stable : ∀ field, asked (Value.refreshFields known field) → asked field) :
    SourcedIf asked (Value.refresh known value) := by
  cases value with
  | object mark field =>
      obtain ⟨unmarked, distinct, source⟩ := sourced mark field rfl
      subst unmarked
      rw [Value.refresh]
      intro mark' field' same
      injection same with unmarked same
      rw [← same, Entries.Distinct, Value.keys_refreshFields, Value.get?_refreshFields]
      refine ⟨unmarked.symm, distinct, fun told => ?_⟩
      obtain ⟨text, named, given⟩ := source (stable field told)
      rw [named]
      exact ⟨text, rfl, given⟩
  | null | bool _ | int _ | float _ | text _ | array _ =>
      rw [Value.refresh]
      · exact sourced
      · simp

theorem putShared {name : Text} {fields : Fields} (sourced : SourcedIf asked value)
    (all : ∀ entry ∈ fields, SourcedIf asked entry.2)
    (stable : ∀ known field, asked (Value.refreshFields known field) → asked field) :
    ∀ entry ∈ Value.putShared name value fields, SourcedIf asked entry.2 := by
  intro entry member
  obtain ⟨before, known, same⟩ := Value.exists_of_mem_refreshFields member
  rw [same]
  rcases Entries.mem_of_mem_put known with written | old
  · have itself : before = value := congrArg Prod.snd written
    rw [itself]
    exact sourced.refresh _ (stable _)
  · exact (all _ old).refresh _ (stable _)

end SourcedIf

end Draft

open Draft (Sourced SourcedIf Referring)

namespace Lineage

private theorem sourced_fresh {key : Text} (named : (Value.text key).truthy = true) {field : Fields}
    (distinct : Entries.Distinct field) (fresh : Entries.get? "_source" field = none) :
    Sourced (sourced key (.object none field)) := by
  intro mark written shape
  injection shape with unmarked same
  rw [← same, Entries.get?_putNew, if_pos ⟨rfl, fresh⟩]
  exact ⟨unmarked.symm, distinct.putNew _ _, fun _ => ⟨key, rfl, named⟩⟩

theorem hereditary_sourced {items : Fields} (authored : AuthoredDocument items) :
    Hereditary items (fun attributes => ∀ entry ∈ attributes, Sourced entry.2) where
  empty := by
    intro entry none
    cases none
  own := by
    intro key mark item found resolved
    rw [authored.fresh key mark item (Entries.mem_of_get? found)] at resolved
    cases resolved
  root := by
    intro key mark item found entry member
    obtain ⟨⟨name, value⟩, before, same⟩ := List.mem_map.mp member
    rw [← same]
    cases value with
    | object own field =>
        obtain ⟨rfl, distinct, fresh⟩ := authored.attributes key mark item
          (Entries.mem_of_get? found) name own field (List.mem_of_mem_filter before)
        exact sourced_fresh (authored.named key (Entries.mem_keys_of_get? found)) distinct fresh
    | null | bool _ | int _ | float _ | text _ | array _ => exact SourcedIf.of_not_object rfl
  step := by
    intro key mark item found entry member own fields after all ran
    rcases override_cases ran with
      ⟨inner, base, _, _, written, known, _, same, wrote⟩ | ⟨object, _, same⟩ | ⟨plain, same⟩
    · refine ⟨_, same, SourcedIf.putShared ?_ all fun _ _ _ => trivial⟩
      obtain ⟨unmarked, distinct, told⟩ := all _ (Entries.mem_of_get? known) _ _ rfl
      obtain ⟨text, named, given⟩ := told trivial
      rintro mark' field' ⟨⟩
      exact ⟨unmarked, wrote.distinct distinct, fun _ => ⟨text, wrote.source _ named rfl, given⟩⟩
    · refine ⟨_, same, fun other present => ?_⟩
      rcases Entries.mem_of_mem_put present with new | old
      · rw [new]
        cases shape : entry.2 with
        | object own' declared =>
            obtain ⟨_, distinct, fresh⟩ := authored.attributes key mark item
              (Entries.mem_of_get? found) entry.1 own' declared (shape ▸ member)
            rw [Value.unshared]
            refine sourced_fresh (authored.named key (Entries.mem_keys_of_get? found)) ?_ ?_
            · rw [Entries.Distinct, Value.keys_unsharedFields]
              exact distinct
            · rw [Value.get?_unsharedFields, fresh, Option.map_none]
        | null | bool _ | int _ | float _ | text _ | array _ =>
            rw [shape] at object
            cases object
      · exact all _ old
    · refine ⟨_, same, fun other present => ?_⟩
      rcases Entries.mem_of_mem_put present with new | old
      · rw [new]
        exact SourcedIf.of_not_object plain
      · exact all _ old
  kept attributes all entry member := all entry (List.mem_of_mem_filter member)

end Lineage

/-! ### Attributes that refer when the profiles are closed -/

namespace Draft

/-- Items whose attributes name their source if they name an object type. -/
def ReferringItems (items : Entries Fields) : Prop :=
  ∀ item ∈ items, ∀ entry ∈ Entries.attributes item.2, Referring entry.2

private theorem referring_flattened {kind : ItemKind} {items : Fields} {flats : Entries Fields}
    (authored : AuthoredDocument items) (ran : (Lineage.flattenAll kind items).Yields flats) :
    ∀ item ∈ flats, ∀ entry ∈ Entries.attributes item.2, Sourced entry.2 := by
  intro item member
  obtain ⟨_, _, computed⟩ := (Lineage.flattenAll_ok ran).mem_right member
  exact (Lineage.hereditary_sourced authored).flat computed

theorem Referring.put {mark : Option Nat} {field : Fields} {key : Text}
    (referring : Referring (.object mark field)) (type : key ≠ "object_type")
    (source : key ≠ "_source") (value : Value) : Referring (.object mark (Entries.put key value field)) := by
  obtain ⟨unmarked, distinct, sourced⟩ := referring mark field rfl
  rintro mark' field' ⟨⟩
  refine ⟨unmarked, distinct.put _ _, fun given => ?_⟩
  dsimp only at given
  rw [Entries.has, Entries.get?_put_of_ne type] at given
  rw [Entries.get?_put_of_ne source]
  exact sourced given

private theorem referring_empty : Referring (.record []) := by
  rintro mark field ⟨⟩
  refine ⟨rfl, Entries.Distinct.nil, fun given => ?_⟩
  cases given

private theorem referring_orEmpty {attributes : Fields} (name : Text)
    (all : ∀ entry ∈ attributes, Referring entry.2) : Referring (Entries.orEmpty name attributes) := by
  unfold Entries.orEmpty Entries.getOr
  cases found : Entries.get? name attributes with
  | none => exact referring_empty
  | some value => exact all _ (Entries.mem_of_get? found)

theorem Retouched.referring {source : Text} {before after : Fields}
    (retouched : Retouched source before after) (all : ∀ entry ∈ before, Referring entry.2) : ∀ entry ∈ after,
      Referring entry.2 := by
  induction retouched with
  | same => exact all
  | @field after key changed value name earlier written wrote ih =>
      intro entry member
      rcases Entries.mem_of_mem_put member with new | old
      · rw [new]
        have before := referring_orEmpty name ih
        cases shape : Entries.orEmpty name after with
        | object mark field =>
            rw [shape] at wrote before
            rw [← Except.ok.inj wrote]
            refine before.put ?_ ?_ value
            · rcases written with rfl | rfl <;> decide
            · rcases written with rfl | rfl <;> decide
        | null | bool _ | int _ | float _ | text _ | array _ =>
            rw [shape] at wrote
            cases wrote
      · exact ih entry old
  | @source after name earlier ih =>
      unfold setSource
      split
      · rename_i mark field found
        intro entry member
        rcases Entries.mem_of_mem_put member with new | old
        · rw [new]
          obtain ⟨unmarked, distinct, sourced⟩ := ih _ (Entries.mem_of_get? found) mark field rfl
          rintro mark' field' ⟨⟩
          refine ⟨unmarked, distinct.putNew _ _, fun given => ?_⟩
          dsimp only at given
          rw [Entries.has, Entries.get?_putNew, if_neg (fun both => absurd both.1 (by decide))]
            at given
          obtain ⟨text, named, truthy⟩ := sourced given
          refine ⟨text, ?_, truthy⟩
          rw [Entries.get?_putNew, if_neg, named]
          rintro ⟨_, absent⟩
          rw [named] at absent
          cases absent
        · exact ih entry old
      · exact ih

end Draft

/-- When the profiles are closed, no attribute names an object type without its source. -/
theorem Stages.referring {d : Definitions} {graph : Graph} (stages : Stages d graph)
    (classes : AuthoredDocument stages.rawClasses) (objects : AuthoredDocument stages.rawObjects) :
    Draft.ReferringItems stages.closed.classes ∧ Draft.ReferringItems stages.closed.objects := by
  have flatClasses := Draft.referring_flattened classes stages.flattenClasses
  have flatObjects := Draft.referring_flattened objects stages.flattenObjects
  obtain ⟨_, resolved⟩ := Draft.resolveDictionary_ok stages.resolving
  obtain ⟨identified, same, each⟩ := Draft.identifyClasses_ok stages.identifying
  rw [resolved] at each
  have listedClasses : Draft.ReferringItems stages.listed.classes := by
    have unchanged : stages.listed.classes = identified := by
      rcases Draft.listObservables_ok stages.listing with ⟨_, listed⟩ | ⟨_, _, _, _, _, _, _, _, listed⟩
      · rw [listed, same]
      · rw [listed, same]
    rw [unchanged]
    intro item member
    obtain ⟨origin, before, ran⟩ := each.mem_right member
    refine (Draft.identify_ok ran).1.referring fun entry known => Sourced.referring ?_
    exact flatClasses _ (List.mem_of_mem_filter before) entry known
  have shown : stages.identified.objects = stages.flatObjects.filter fun e => !isHiddenObject e.1 := by
    rw [same, resolved]
    rfl
  have listedObjects : Draft.ReferringItems stages.listed.objects := by
    have before : ∀ item ∈ stages.identified.objects, ∀ entry ∈ Entries.attributes item.2,
        Sourced entry.2 := by
      rw [shown]
      exact fun item member => flatObjects item (List.mem_of_mem_filter member)
    rcases Draft.listObservables_ok stages.listing with ⟨_, listed⟩ |
      ⟨object, attributes, ids, enumeration, found, own, read, _, listed⟩
    · rw [listed]
      exact fun item member entry known => (before item member entry known).referring
    · rw [listed]
      intro item member
      rcases Entries.mem_of_mem_put member with new | old
      · have all : ∀ entry ∈ attributes, Referring entry.2 := by
          rw [← Draft.attributes_of_ok own]
          exact fun entry known => (before _ (Entries.mem_of_get? found) entry known).referring
        have identifiers : Referring (.record ids) := by
          have known := Draft.referring_orEmpty "type_id" all
          cases shape : Entries.orEmpty "type_id" attributes with
          | object mark field =>
              rw [shape] at known read
              obtain ⟨rfl, _⟩ := known mark field rfl
              exact Except.ok.inj read ▸ known
          | null | bool _ | int _ | float _ | text _ | array _ =>
              rw [shape] at read
              cases read
        rw [new, Entries.attributes_put_record]
        refine SourcedIf.putShared (identifiers.put (by decide) (by decide) enumeration) all ?_
        intro known field given
        rw [Entries.has, Value.get?_refreshFields, Option.isSome_map] at given
        exact given
      · exact fun entry known => (before item old entry known).referring
  obtain ⟨objects', classes', same, closedObjects, each⟩ := Draft.closeAllProfiles_ok
    (motive := fun _ items => Draft.ReferringItems items) stages.closing listedObjects
    (by
      intro _ key items item result referring found closing other member
      rcases Entries.mem_of_mem_put member with new | old
      · rw [new, Draft.attributes_closeProfiles closing]
        exact referring _ (Entries.mem_of_get? found)
      · exact referring other old)
    (fun _ _ _ referring _ => referring)
  rw [same]
  refine ⟨fun item member => ?_, closedObjects⟩
  obtain ⟨origin, before, closing⟩ := each.mem_right member
  rw [Draft.attributes_closeProfiles closing]
  exact listedClasses _ before

/-! ### From closed profiles to the graph -/

namespace Draft

structure Completed (finishing : Draft) (enabled : Bool) (item result : Fields) : Prop where
  profiles : Entries.profiles result = Entries.profiles item ∨ enabled = true ∧
    Entries.profiles result = Value.addNew [] (Entries.profiles item ++ [.text "datetime"])
  attributes : ∀ entry ∈ Entries.attributes result,
    (∃ origin filled whole, (entry.1, origin) ∈ Entries.attributes item ∧ FilledIn origin filled ∧
      finishing.finishAttribute whole entry.1 filled = .ok entry.2) ∨
    enabled = true ∧ ∃ other ∈ Entries.keys (Entries.attributes result), entry.1 = datetimeName other
  kept : ∀ name value, Entries.get? name (Entries.attributes item) = some value →
    ∃ filled whole finished, FilledIn value filled ∧
      Entries.get? "extension" whole = Entries.get? "extension" item ∧
      finishing.finishAttribute whole name filled = .ok finished ∧
      Entries.get? name (Entries.attributes result) = some finished

private theorem completed_of_steps (dating : Draft) {finishing : Draft} {enabled : Bool} {kind : ItemKind} {key : Text}
    {item dated required result : Fields}
    (dates : (enabled = false ∧ dated = item) ∨ (enabled = true ∧ dating.addSiblings item = .ok dated))
    (requires : ∃ missing, requireItem kind key dated = .ok (required, missing))
    (finishes : finishing.finishItem required = .ok result) :
    Completed finishing enabled item result := by
  obtain ⟨missing, requires⟩ := requires
  obtain ⟨filled, requiredFrame⟩ := requireItem_ok requires
  obtain ⟨finished, finishedFrame⟩ := finishItem_ok finishes
  have profiles : Entries.profiles result = Entries.profiles dated :=
    (profiles_of_frame finishedFrame).trans (profiles_of_frame requiredFrame)
  have keys : Entries.keys (Entries.attributes result) = Entries.keys (Entries.attributes dated) :=
    finished.keys_eq.trans filled.keys_eq
  have origin : ∀ entry ∈ Entries.attributes result, ∃ value, (entry.1, value) ∈ Entries.attributes dated ∧
      ∃ filled whole, FilledIn value filled ∧
        finishing.finishAttribute whole entry.1 filled = .ok entry.2 := by
    intro entry member
    obtain ⟨before, known, ran⟩ := finished.mem_right member
    obtain ⟨value, known, same⟩ := filled.mem_right known
    exact ⟨value, known, before, required, same, ran⟩
  have onward : ∀ name value, Entries.get? name (Entries.attributes dated) = some value →
      Entries.get? "extension" dated = Entries.get? "extension" item →
      ∃ filled whole finished, FilledIn value filled ∧
        Entries.get? "extension" whole = Entries.get? "extension" item ∧
        finishing.finishAttribute whole name filled = .ok finished ∧
        Entries.get? name (Entries.attributes result) = some finished := by
    intro name value found owner
    obtain ⟨before, known, filling⟩ := filled.get?_left found
    obtain ⟨last, known, ran⟩ := finished.get?_left known
    exact ⟨before, required, last, filling,
      (requiredFrame "extension" (by decide)).trans owner, ran, known⟩
  rcases dates with ⟨_, same⟩ | ⟨enables, dates⟩
  · rw [same] at profiles origin onward
    refine ⟨Or.inl profiles, fun entry member => Or.inl ?_, fun name value found => onward name value found rfl⟩
    obtain ⟨value, known, before, whole, filling, ran⟩ := origin entry member
    exact ⟨value, before, whole, known, filling, ran⟩
  · obtain ⟨siblings, collected, attributes, dated, datedFrame⟩ := addSiblings_ok dates
    refine ⟨?_, ?_, fun name value found => onward name value ?_ (datedFrame _ (by decide) (by decide))⟩
    · rw [profiles, dated]
      split
      · exact Or.inl rfl
      · exact Or.inr ⟨enables, rfl⟩
    · intro entry member
      obtain ⟨value, known, before, whole, filling, ran⟩ := origin entry member
      rw [attributes] at known
      rcases mem_of_mem_withSiblings known with old | new
      · exact Or.inl ⟨value, before, whole, old, filling, ran⟩
      · right
        obtain ⟨other, present, made⟩ := exists_of_filterMapM collected new
        have name := siblingOf?_name made
        refine ⟨enables, other.1, ?_, name⟩
        rw [keys, attributes]
        exact mem_keys_withSiblings (List.mem_map_of_mem present) siblings
    · rw [attributes, get?_addSiblings collected found]

end Draft

/-- The passes that an item goes through once the profiles are closed: it gets siblings if that is asked,
its requirements are filled in, and its attributes are finished. -/
structure Draft.Passes (dating finishing : Draft) (enabled : Bool) (kind : ItemKind) (key : Text)
    (item dated required result : Fields) : Prop where
  dates : (enabled = false ∧ dated = item) ∨ (enabled = true ∧ dating.addSiblings item = .ok dated)
  requires : ∃ missing, Draft.requireItem kind key dated = .ok (required, missing)
  finishes : finishing.finishItem required = .ok result

theorem Stages.passes {d : Definitions} {graph : Graph} (stages : Stages d graph) :
    ∃ enabled, stages.closed.datetimeEnabled = .ok enabled ∧
      Entries.Related (fun key item result => ∃ dated required, Draft.Passes stages.closed stages.required
        enabled .eventClass key item dated required result) stages.closed.classes stages.finished.classes ∧
      Entries.Related (fun key item result => ∃ dated required, Draft.Passes stages.closed stages.required
        enabled .object key item dated required result) stages.closed.objects stages.finished.objects := by
  obtain ⟨_, _, _, required, eachClass, eachObject⟩ := Draft.requireAll_ok stages.requiring
  obtain ⟨_, _, _, finished, lastClass, lastObject⟩ := Draft.finish_ok stages.finishing
  have classes : stages.required.classes = _ := congrArg Draft.classes required
  have objects : stages.required.objects = _ := congrArg Draft.objects required
  rw [classes] at lastClass
  rw [objects] at lastObject
  have finishedClasses : stages.finished.classes = _ := congrArg Draft.classes finished
  have finishedObjects : stages.finished.objects = _ := congrArg Draft.objects finished
  rw [finishedClasses, finishedObjects]
  rcases Draft.addDatetimeSiblings_ok stages.dating with
    ⟨asked, same⟩ | ⟨asked, _, _, same, firstClass, firstObject⟩
  · rw [same] at eachClass eachObject
    refine ⟨false, asked, (eachClass.trans lastClass).imp ?_, (eachObject.trans lastObject).imp ?_⟩
    · rintro key item result ⟨required, requires, finishes⟩
      exact ⟨item, required, Or.inl ⟨rfl, rfl⟩, requires, finishes⟩
    · rintro key item result ⟨required, requires, finishes⟩
      exact ⟨item, required, Or.inl ⟨rfl, rfl⟩, requires, finishes⟩
  · rw [same] at eachClass eachObject
    refine ⟨true, asked, ((firstClass.trans eachClass).trans lastClass).imp ?_,
      ((firstObject.trans eachObject).trans lastObject).imp ?_⟩
    · rintro key item result ⟨required, ⟨dated, dates, requires⟩, finishes⟩
      exact ⟨dated, required, Or.inr ⟨rfl, dates⟩, requires, finishes⟩
    · rintro key item result ⟨required, ⟨dated, dates, requires⟩, finishes⟩
      exact ⟨dated, required, Or.inr ⟨rfl, dates⟩, requires, finishes⟩

/-- What becomes of all items once the profiles are closed. -/
theorem Stages.completed {d : Definitions} {graph : Graph} (stages : Stages d graph) :
    ∃ enabled, stages.closed.datetimeEnabled = .ok enabled ∧
      Entries.Related (fun _ => Draft.Completed stages.required enabled) stages.closed.classes
        stages.finished.classes ∧
      Entries.Related (fun _ => Draft.Completed stages.required enabled) stages.closed.objects
        stages.finished.objects := by
  obtain ⟨enabled, asked, eachClass, eachObject⟩ := stages.passes
  refine ⟨enabled, asked, eachClass.imp ?_, eachObject.imp ?_⟩
  · rintro key item result ⟨dated, required, passes⟩
    exact Draft.completed_of_steps stages.closed passes.dates passes.requires passes.finishes
  · rintro key item result ⟨dated, required, passes⟩
    exact Draft.completed_of_steps stages.closed passes.dates passes.requires passes.finishes

namespace Stages

variable {d : Definitions} {graph : Graph} (stages : Stages d graph)

/-- References are finished among the same objects, over the same dictionary. -/
theorem sameReferences :
    stages.required.attributes = stages.closed.attributes ∧
      Entries.keys stages.required.objects = Entries.keys stages.closed.objects := by
  obtain ⟨_, _, _, required, _, eachObject⟩ := Draft.requireAll_ok stages.requiring
  have keys : Entries.keys stages.required.objects = Entries.keys stages.dated.objects := by
    rw [← eachObject.keys_eq, required]
  have attributes : stages.required.attributes = stages.dated.attributes := by
    rw [required]
  rw [keys, attributes]
  rcases Draft.addDatetimeSiblings_ok stages.dating with ⟨_, same⟩ | ⟨_, _, _, same, _, objects⟩
  · rw [same]
    exact ⟨rfl, rfl⟩
  · rw [← objects.keys_eq, same]
    exact ⟨rfl, rfl⟩

/-- Whether siblings are added is decided by the definitions. -/
theorem datetimeEnabled_closed :
    stages.closed.datetimeEnabled = stages.start.datetimeEnabled := by
  obtain ⟨_, resolved⟩ := Draft.resolveDictionary_ok stages.resolving
  obtain ⟨_, identified, _⟩ := Draft.identifyClasses_ok stages.identifying
  have listed : stages.listed.profiles = stages.identified.profiles ∧
      stages.listed.types = stages.identified.types := by
    rcases Draft.listObservables_ok stages.listing with ⟨_, same⟩ | ⟨_, _, _, _, _, _, _, _, same⟩
    · rw [same]
      exact ⟨rfl, rfl⟩
    · rw [same]
      exact ⟨rfl, rfl⟩
  obtain ⟨_, _, closed, _⟩ := Draft.closeAllProfiles_ok (motive := fun _ _ => True) stages.closing
    trivial (fun _ _ _ _ _ _ _ _ => trivial) (fun _ _ _ _ _ => trivial)
  have profiles : stages.closed.profiles = stages.start.profiles := by
    have first : stages.closed.profiles = stages.listed.profiles := by rw [closed]
    rw [first, listed.1, identified, resolved]
    rfl
  have types : stages.closed.types = stages.start.types := by
    have first : stages.closed.types = stages.listed.types := by rw [closed]
    rw [first, listed.2, identified, resolved]
    rfl
  unfold Draft.datetimeEnabled
  rw [profiles, types]

theorem named (objects : AuthoredDocument stages.rawObjects) :
    ∀ key ∈ Entries.keys stages.closed.objects, (Value.text key).truthy = true := by
  intro key member
  apply objects.named
  obtain ⟨_, resolved⟩ := Draft.resolveDictionary_ok stages.resolving
  obtain ⟨_, identified, _⟩ := Draft.identifyClasses_ok stages.identifying
  have flats := (Lineage.flattenAll_ok stages.flattenObjects).keys_eq
  have shown : key ∈ Entries.keys stages.identified.objects := by
    rw [(Draft.closeAllProfiles_closed stages.closing).1] at member
    rcases Draft.listObservables_ok stages.listing with ⟨_, same⟩ | ⟨_, _, _, _, found, _, _, _, same⟩
    · rw [same] at member
      exact member
    · rw [same, Entries.keys_put,
        if_pos (Entries.has_iff_mem_keys.mpr (Entries.mem_keys_of_get? found))] at member
      exact member
  rw [identified, resolved] at shown
  rw [← flats]
  obtain ⟨entry, kept, same⟩ := List.mem_map.mp shown
  exact same ▸ List.mem_map_of_mem (List.mem_of_mem_filter kept)

end Stages

/-! ### References of the graph -/

def Graph.Refers (graph : Graph) (entity : Entity) (name : Text) (object : Entity) : Prop :=
  ∃ record key, (name, record) ∈ entity.attributes ∧ record.type = .text "object_t" ∧
    record.objectType = .text key ∧ Entries.get? key graph.objects = some object

def Entity.Covers (entity object : Entity) : Prop :=
  ∀ profile ∈ object.profiles, profile.isIn entity.profiles = true

theorem exists_of_mem_ofValues {attributes : Fields} {name : Text} {record : Attribute}
    (member : (name, record) ∈ Attribute.ofValues attributes) :
    ∃ mark field, (name, .object mark field) ∈ attributes ∧
      record = Attribute.ofFields name field := by
  obtain ⟨⟨other, value⟩, known, shown⟩ := List.mem_filterMap.mp member
  cases value with
  | object mark field =>
      injection shown with same
      injection same with names attributes
      rw [← names]
      exact ⟨mark, field, known, attributes.symm⟩
  | null | bool _ | int _ | float _ | text _ | array _ => cases shown

namespace Stages

variable {d : Definitions} {graph : Graph} (stages : Stages d graph)

private theorem leads_of_finished (authored : AuthoredDocument stages.rawObjects) {name key : Text}
    {origin filled : Value} {whole finished : Fields} {mark : Option Nat}
    (referring : Referring origin) (same : Draft.FilledIn origin filled)
    (ran : stages.required.finishAttribute whole name filled = .ok (.object mark finished))
    (refers : Entries.orNull "object_type" finished = .text key)
    (present : key ∈ Entries.keys stages.closed.objects) :
    Draft.Leads stages.closed (name, origin) key := by
  obtain ⟨dictionary, keys⟩ := stages.sameReferences
  have named := stages.named authored key present
  have held : Entries.has key stages.required.objects = true := by
    rw [Entries.has_iff_mem_keys, keys]
    exact present
  have type := Draft.objectTypeOf_of_finished (referring.filledIn same) ran refers named held
  rw [Draft.objectTypeOf_filledIn same, Draft.objectTypeOf_congr dictionary keys] at type
  exact ⟨type, named, Entries.has_iff_mem_keys.mpr present⟩

structure Source (enabled : Bool) (item result : Fields) : Prop where
  completed : Draft.Completed stages.required enabled item result
  referring : ∀ entry ∈ Entries.attributes item, Referring entry.2
  closed : ∀ entry ∈ Entries.attributes item, ∀ other, Draft.Leads stages.closed entry other →
    ∀ profile ∈ Draft.profilesAt stages.closed.objects other,
      Value.Held profile (Entries.profiles item)

theorem exists_source (classes : AuthoredDocument stages.rawClasses)
    (objects : AuthoredDocument stages.rawObjects) {enabled : Bool}
    (eachClass : Entries.Related (fun _ => Draft.Completed stages.required enabled)
      stages.closed.classes stages.finished.classes)
    (eachObject : Entries.Related (fun _ => Draft.Completed stages.required enabled)
      stages.closed.objects stages.finished.objects) :
    ∀ member ∈ members stages.finished.classes stages.finished.objects,
      ∃ item, stages.Source enabled item member.item := by
  obtain ⟨referringClasses, referringObjects⟩ := stages.referring classes objects
  obtain ⟨_, closedObjects, closedClasses⟩ := Draft.closeAllProfiles_closed stages.closing
  refine forall_members (fun result => ∃ item, stages.Source enabled item result) ?_ ?_
  · intro entry member
    obtain ⟨item, before, completed⟩ := eachClass.mem_right member
    exact ⟨item, completed, referringClasses _ before, closedClasses _ before⟩
  · intro entry member
    obtain ⟨item, before, completed⟩ := eachObject.mem_right member
    refine ⟨item, completed, referringObjects _ before, closedObjects entry.1 item ?_⟩
    refine Entries.get?_of_mem ?_ before
    rw [Entries.Distinct, ← eachObject.keys_eq]
    exact (stages.tidy classes.toKeyedDocument objects.toKeyedDocument).2.keyed.keys

end Stages

theorem Draft.Completed.before {finishing : Draft} {enabled : Bool} {item result : Fields}
    (completed : Draft.Completed finishing enabled item result) :
    ∀ profile ∈ Entries.profiles result, profile ∈ Entries.profiles item ∨
      enabled = true ∧ profile = .text "datetime" := by
  intro profile known
  rcases completed.profiles with same | ⟨enables, same⟩
  · exact Or.inl (same ▸ known)
  · rw [same] at known
    rcases Value.mem_of_mem_addNew known with none | member
    · cases none
    rcases List.mem_append.mp member with old | new
    · exact Or.inl old
    · exact Or.inr ⟨enables, List.mem_singleton.mp new⟩

theorem Draft.Completed.held {finishing : Draft} {enabled : Bool} {item result : Fields}
    (completed : Draft.Completed finishing enabled item result) :
    ∀ profile ∈ Entries.profiles item, Value.Held profile (Entries.profiles result) := by
  intro profile known
  rcases completed.profiles with same | ⟨_, same⟩
  · exact Value.held_of_mem (same ▸ known)
  · rw [same]
    exact Value.held_addNew (Or.inr (List.mem_append_left _ known))

namespace Graph

/-- An item of a graph has all profiles of every object that it refers to if no siblings of timestamps
are added. If they are, it has all but the one of the siblings, by any attribute that is no such
sibling itself; so it has all exactly if it has that one or the object does not. -/
theorem covers_iff {d : Definitions} {graph : Graph}
    (classes : ∀ items, d.classes.asFields = .ok items → AuthoredDocument items)
    (objects : ∀ items, d.objects.asFields = .ok items → AuthoredDocument items)
    (built : (Graph.ofDefinitions d).Yields graph) :
    ∀ member ∈ graph.members, ∀ name object, graph.Refers member.item name object →
      ((∃ start, Draft.ofDefinitions d = .ok start ∧ start.datetimeEnabled = .ok false) →
        member.item.Covers object) ∧
      ((∀ other ∈ Entries.keys member.item.attributes, name ≠ Draft.datetimeName other) →
        (member.item.Covers object ↔
          (.text "datetime" ∈ object.profiles → .text "datetime" ∈ member.item.profiles))) := by
  obtain ⟨stages⟩ := exists_stages built
  have authoredClasses := classes _ stages.readClasses
  have authoredObjects := objects _ stages.readObjects
  obtain ⟨linked, readClasses, readObjects⟩ := Draft.graph_ok stages.reading
  have reads := readsMembers readClasses readObjects
  obtain ⟨enabled, asked, eachClass, eachObject⟩ := stages.completed
  have sources := stages.exists_source authoredClasses authoredObjects eachClass eachObject
  have readable := Links.readable_of_ofItems linked
  intro member shown name object refers
  obtain ⟨record, key, known, _, type, found⟩ := refers
  obtain ⟨result, present, read⟩ := exists_left_of_mem reads shown
  obtain ⟨item, source⟩ := sources result present
  obtain ⟨finished, foundFinished, readObject⟩ := readObjects.get?_right found
  obtain ⟨closed, foundClosed, completedObject⟩ := eachObject.get?_right foundFinished
  rw [read.item.attributes] at known
  obtain ⟨mark, field, finishedField, shape⟩ := exists_of_mem_ofValues known
  rw [shape] at type
  -- by an attribute that was there in time, nothing but the profile of the siblings can be missing
  have covered : (∃ origin filled whole, (name, origin) ∈ Entries.attributes item ∧
      Draft.FilledIn origin filled ∧
      stages.required.finishAttribute whole name filled = .ok (.object mark field)) →
      ∀ profile ∈ object.profiles, enabled = true ∧ profile = .text "datetime" ∨
        profile.isIn member.item.profiles = true := by
    rintro ⟨origin, filled, whole, before, same, ran⟩ profile listed
    have leads := stages.leads_of_finished authoredObjects (source.referring _ before) same ran type
      (Entries.mem_keys_of_get? foundClosed)
    rw [(readsItem_of_ok readObject).profiles] at listed
    rcases completedObject.before profile listed with old | new
    · right
      rw [← Draft.profilesAt_of_get? foundClosed] at old
      have held := source.closed _ before key leads profile old
      rw [read.item.profiles]
      exact (held.trans source.completed.held).isIn (readable result present).2
    · exact Or.inl new
  have origin := source.completed.attributes _ finishedField
  constructor
  · rintro ⟨start, starting, disabled⟩ profile listed
    have never : enabled = false := by
      rw [stages.datetimeEnabled_closed, Except.ok.inj (stages.starting.symm.trans starting),
        disabled] at asked
      exact (Except.ok.inj asked).symm
    rw [never] at covered origin
    rcases origin with before | ⟨impossible, _⟩
    · rcases covered before profile listed with ⟨impossible, _⟩ | among
      · cases impossible
      · exact among
    · cases impossible
  · intro notSibling
    rcases origin with before | ⟨_, other, among, sibling⟩
    · constructor
      · intro covers listed
        exact Value.text_isIn.mp (covers _ listed)
      · intro datetime profile listed
        rcases covered before profile listed with ⟨_, same⟩ | among
        · rw [same]
          exact Value.text_isIn.mpr (datetime (same ▸ listed))
        · exact among
    · rw [← (read.names (readable result present).1).1] at among
      exact absurd sibling (notSibling other among)

/-- A class with an object that has a timestamp, and with another attribute of the given type. -/
def timestampInside (type : Text) : Definitions where
  version := .text "1.0.0"
  categories := .record []
  dictionary := .record [
    ("attributes", .record [
      ("file", .record [("type", .text "file")]),
      ("seen", .record [("type", .text type)]),
      ("time", .record [("type", .text "timestamp_t")])]),
    ("types", .record [("attributes", .record [
      ("timestamp_t", .record []), ("datetime_t", .record [])])])]
  classes := .record [("base_event", .record [
    ("attributes", .record [
      ("file", plainAttribute), ("seen", plainAttribute), ("class_uid", plainAttribute),
      ("class_name", plainAttribute), ("type_uid", plainAttribute)])])]
  objects := .record [("file", .record [
    ("profiles", .array [.text "host"]),
    ("attributes", .record [("time", plainAttribute)])])]
  profiles := .record [("datetime", .record []), ("host", .record [])]
  extensions := []

private theorem authored_singleton {key : Text} {item : Fields} (named : (Value.text key).truthy = true)
    (names : Entries.Distinct (Entries.attributes item))
    (fresh : Value.given (Entries.get? "_resolved" item) = false)
    (plain : ∀ entry ∈ Entries.attributes item, entry.2 = plainAttribute) :
    AuthoredDocument [(key, .record item)] where
  toKeyedDocument := KeyedDocument.singleton names
  named := by
    intro other member
    rw [List.mem_singleton.mp member]
    exact named
  fresh := by
    intro other mark item' member
    cases List.mem_singleton.mp member
    exact fresh
  attributes := by
    intro other mark item' member name own field known
    cases List.mem_singleton.mp member
    have same : Value.object own field = plainAttribute := plain _ known
    injection same with unmarked same
    rw [same]
    exact ⟨unmarked, by decide, by decide⟩

/-- Whether the class refers to the object by the attribute for it, and whether the object and the
class have the profile of the siblings. -/
def datetimeOfFile (graph : Graph) : Bool × Bool × Bool :=
  match Entries.get? "base_event" graph.classes, Entries.get? "file" graph.objects with
  | some entity, some object =>
    (decide (∃ entry ∈ entity.attributes, entry.1 = "file" ∧ entry.2.type = .text "object_t" ∧
      entry.2.objectType = .text "file"),
    decide (.text "datetime" ∈ object.profiles), decide (.text "datetime" ∈ entity.profiles))
  | _, _ => (false, false, false)

private theorem datetimeOfFile_ok {graph : Graph} {listed : Bool}
    (evaluated : datetimeOfFile graph = (true, true, listed)) :
    ∃ member ∈ graph.members, ∃ object, graph.Refers member.item "file" object ∧
      .text "datetime" ∈ object.profiles ∧
      (.text "datetime" ∈ member.item.profiles ↔ listed = true) := by
  unfold datetimeOfFile at evaluated
  split at evaluated
  · rename_i entity object class? object?
    obtain ⟨refers, rest⟩ := Prod.mk.inj evaluated
    obtain ⟨datetime, same⟩ := Prod.mk.inj rest
    obtain ⟨⟨name, record⟩, known, rfl, type, key⟩ := of_decide_eq_true refers
    refine ⟨⟨Links.classGroup "base_event", "base_event", entity⟩, ?_, object,
      ⟨record, "file", known, type, key, object?⟩, of_decide_eq_true datetime, ?_⟩
    · exact List.mem_append_left _ (List.mem_map.mpr ⟨_, Entries.mem_of_get? class?, rfl⟩)
    · rw [← same, decide_eq_true_iff]
  · cases evaluated

/-- The timestamp is in the object alone, and the class is left without the profile of its sibling. -/
theorem covers_fails_timestampInside :
    ∃ graph, (Graph.ofDefinitions (timestampInside "datetime_t")).Yields graph ∧
      ∃ member ∈ graph.members, ∃ object, graph.Refers member.item "file" object ∧
        ¬member.item.Covers object := by
  have evaluated : ((Graph.ofDefinitions (timestampInside "datetime_t")).outcome {}).1.toOption.map
      datetimeOfFile = some (true, true, false) := by
    decide +kernel
  obtain ⟨graph, built, shown⟩ := Act.exists_of_outcome evaluated
  obtain ⟨member, present, object, refers, datetime, missing⟩ := datetimeOfFile_ok shown
  refine ⟨graph, built, member, present, object, refers, fun covers => ?_⟩
  have listed := missing.mp (Value.text_isIn.mp (covers _ datetime))
  cases listed

theorem covers_iff_timestampInside :
    ∃ graph, (Graph.ofDefinitions (timestampInside "timestamp_t")).Yields graph ∧
      ∃ member ∈ graph.members, ∃ object, graph.Refers member.item "file" object ∧
        .text "datetime" ∈ object.profiles ∧ member.item.Covers object := by
  have evaluated : ((Graph.ofDefinitions (timestampInside "timestamp_t")).outcome {}).1.toOption.map
      datetimeOfFile = some (true, true, true) := by
    decide +kernel
  obtain ⟨graph, built, shown⟩ := Act.exists_of_outcome evaluated
  obtain ⟨member, present, object, refers, datetime, listed⟩ := datetimeOfFile_ok shown
  have apart : ∀ other ∈ Entries.keys member.item.attributes,
      ("file" : Text) ≠ Draft.datetimeName other := by
    intro other _ same
    have last := congrArg (fun text => text.codes.getLast?) same
    rw [Draft.datetimeName] at last
    rw [Text.codes_append, List.getLast?_append] at last
    cases last
  have authored (type : Text) : (∀ items, (timestampInside type).classes.asFields = .ok items →
      AuthoredDocument items) ∧ ∀ items, (timestampInside type).objects.asFields = .ok items →
        AuthoredDocument items := by
    constructor
    · rintro items ⟨⟩
      exact authored_singleton (by decide) (by decide) (by decide) (by decide)
    · rintro items ⟨⟩
      exact authored_singleton (by decide) (by decide) (by decide) (by decide)
  have exactly := (covers_iff (authored _).1 (authored _).2 built member present "file" object
    refers).2 apart
  exact ⟨graph, built, member, present, object, refers, datetime,
    exactly.mpr fun _ => listed.mpr rfl⟩

end Graph

end EventSchema
