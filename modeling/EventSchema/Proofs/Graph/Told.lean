import EventSchema.Proofs.Graph.Owners
import EventSchema.Proofs.Value.Told

/-!
What an item says of its own attributes, up to the graph.

An attribute that an item has itself is merged over the inherited one and over that of the dictionary, and
nothing is merged over it. So a text that it gives for one of its fields is in its record, if no pass writes
the field.
-/

set_option autoImplicit false

namespace EventSchema

open Value

/-! ### Flattening -/

namespace Lineage

open Draft (InPlace inPlace_object)

variable {kind : ItemKind} {items : Fields} {key name field : Text} {told : Option Value} {own : Value}

/-- What is written under another name leaves an attribute as it is. -/
theorem toldAt_override_other {other : Text} {mark : Option Nat} {fields : Fields} {value after : Value}
    (leaf : Leaf told) (tells : ToldAt name field told fields) (apart : other ≠ name)
    (ran : override key (.object mark fields) other value = .ok after) :
    ∃ overridden, after = .record overridden ∧ ToldAt name field told overridden := by
  rcases override_cases ran with ⟨_, _, _, _, _, _, _, same, _⟩ | ⟨_, _, same⟩ | ⟨_, same⟩
  · exact ⟨_, same, tells.putShared leaf apart _⟩
  · exact ⟨_, same, tells.put apart _⟩
  · exact ⟨_, same, tells.put apart _⟩

private theorem toldAt_overrides_others {declared inherited overridden : Fields} {mark last : Option Nat}
    (leaf : Leaf told) (tells : ToldAt name field told inherited) (fresh : name ∉ Entries.keys declared)
    (ran : declared.foldlM (fun inherited entry => override key inherited entry.1 entry.2)
      (.object mark inherited) = .ok (.object last overridden)) : ToldAt name field told overridden := by
  induction declared generalizing mark inherited with
  | nil =>
      cases pure_eq_ok.mp ran
      exact tells
  | cons head rest ih =>
      obtain ⟨apart, others⟩ := not_or.mp (List.mem_cons.not.mp fresh)
      rw [List.foldlM_cons] at ran
      obtain ⟨middle, first, later⟩ := bind_eq_ok.mp ran
      obtain ⟨written, rfl, still⟩ := toldAt_override_other leaf tells (Ne.symm apart) first
      exact ih still others later

/-- An attribute says over an inherited one what it says itself. -/
theorem toldAt_override {mark : Option Nat} {fields : Fields} {value after : Value}
    (leaf : own.isObject = false) (unnamed : field ≠ "_source") (place : InPlace value)
    (all : ∀ entry ∈ fields, InPlace entry.2) (holds : Told field (some own) value)
    (ran : override key (.object mark fields) name value = .ok after) :
    ∃ overridden, after = .record overridden ∧ ToldAt name field (some own) overridden := by
  obtain ⟨given, rfl, known⟩ := holds
  have copied : Entries.get? field (unsharedFields given) = some own := by
    rw [get?_unsharedFields, known, Option.map_some, unshared_of_leaf leaf]
  rcases override_cases ran with
    ⟨inner, base, _, _, written, found, shape, same, wrote⟩ | ⟨_, _, same⟩ | ⟨plain, _⟩
  · cases shape
    obtain ⟨rfl, _⟩ := inPlace_object.mp (all _ (Entries.mem_of_get? found))
    have distinct : Entries.Distinct (unsharedFields given) := by
      rw [Entries.Distinct, keys_unsharedFields]
      exact place.distinct
    have held : Entries.get? field written = some own := by
      rw [wrote.merged field unnamed, get?_mergeFields _ _ distinct, copied]
      cases Entries.get? field base with
      | none => rfl
      | some old => exact congrArg some (merge_apart (Or.inr leaf))
    exact ⟨_, same, toldAt_putShared ⟨written, rfl, held⟩ (leaf_some leaf) fields⟩
  · have written : Told field (some own) (sourced key (Value.record given).unshared) := by
      rw [record, unshared]
      exact ⟨_, rfl, by rw [Entries.get?_putNew, if_neg fun both => unnamed both.1, copied]⟩
    exact ⟨_, same, _, Entries.get?_put_self .., written⟩
  · cases plain

/-- Of attributes that are written one after another each says in the end what it says itself. -/
theorem toldAt_overrides {value : Value} {declared inherited overridden : Fields} {mark last : Option Nat}
    (leaf : own.isObject = false) (unnamed : field ≠ "_source") (holds : Told field (some own) value)
    (places : ∀ entry ∈ declared, InPlace entry.2)
    (steps : ∀ entry ∈ declared, ∀ mark fields after, (∀ entry ∈ fields, InPlace entry.2) →
      override key (.object mark fields) entry.1 entry.2 = .ok after →
      ∃ overridden, after = .record overridden ∧ ∀ entry ∈ overridden, InPlace entry.2)
    (distinct : Entries.Distinct declared) (member : (name, value) ∈ declared)
    (all : ∀ entry ∈ inherited, InPlace entry.2)
    (ran : declared.foldlM (fun inherited entry => override key inherited entry.1 entry.2)
      (.object mark inherited) = .ok (.object last overridden)) :
    ToldAt name field (some own) overridden := by
  induction declared generalizing mark inherited with
  | nil => cases member
  | cons head rest ih =>
      obtain ⟨placeHead, placeRest⟩ := List.forall_mem_cons.mp places
      obtain ⟨stepHead, stepRest⟩ := List.forall_mem_cons.mp steps
      obtain ⟨fresh, others⟩ := List.nodup_cons.mp distinct
      rw [List.foldlM_cons] at ran
      obtain ⟨middle, first, later⟩ := bind_eq_ok.mp ran
      rcases List.mem_cons.mp member with rfl | inside
      · obtain ⟨written, rfl, tells⟩ := toldAt_override leaf unnamed placeHead all holds first
        exact toldAt_overrides_others (leaf_some leaf) tells fresh later
      · obtain ⟨written, rfl, placed⟩ := stepHead mark inherited middle all first
        exact ih placeRest stepRest others inside placed later

private theorem toldAt_kept {attributes : Fields} (distinct : Entries.Distinct attributes)
    (tells : ToldAt name field told attributes) : ToldAt name field told (kept attributes) := by
  obtain ⟨_, found, fields, rfl, known⟩ := tells
  exact ⟨.record fields, by rw [kept_get? distinct, found]; rfl, fields, rfl, known⟩

theorem Flat.toldAt {mark : Option Nat} {item flat : Fields} (keyed : Keyed (.record items))
    (single : ∀ key mark item, Entries.get? key items = some (.object mark item) →
      SingleEach (Entries.attributes item))
    (computed : Flat kind items key flat) (found : Entries.get? key items = some (.object mark item))
    (leaf : own.isObject = false) (unnamed : field ≠ "_source")
    (tells : ToldAt name field (some own) (Entries.attributes item)) :
    ToldAt name field (some own) (Entries.attributes flat) := by
  have attributes : ∀ key mark item, Entries.get? key items = some (.object mark item) →
      Keyed (.record (Entries.attributes item)) := fun key mark item found =>
    (keyed_object.mp (keyed.of_get? found)).attributes
  have inPlace := hereditary_inPlace fun key mark item found =>
    Draft.inPlace_of_document (single key mark item found) (attributes key mark item found)
  have unique := hereditary_distinct fun key mark item found => (attributes key mark item found).distinct
  have distinct := (attributes key mark item found).distinct
  have alone {flat : Fields} (ran : standalone key item = .ok flat) :
      ToldAt name field (some own) (Entries.attributes flat) := by
    rw [attributes_of_standalone ran]
    refine (toldAt_kept distinct tells).mapValues ?_
    rintro _ ⟨fields, rfl, known⟩
    exact ⟨_, rfl, by rw [Entries.get?_putNew, if_neg fun both => unnamed both.1, known]⟩
  obtain ⟨item', above, line, inherited⟩ := computed
  cases line with
  | root found' start =>
      cases found.symm.trans found'
      rw [inherit] at inherited
      split at inherited
      · exact Except.ok.inj inherited ▸ tells
      · split at inherited
        · exact alone inherited
        · obtain ⟨flat, ran, same⟩ := map_eq_ok.mp inherited
          rw [← same, resolved, Entries.attributes_put_of_ne (by decide)]
          exact alone ran
  | @child _ _ _ parent elders found' fresh next older =>
      cases found.symm.trans found'
      rw [inherit] at inherited
      obtain ⟨ancestor, ended, inherited⟩ := bind_eq_ok.mp inherited
      obtain ⟨flat, ran, same⟩ := map_eq_ok.mp inherited
      rw [← same, resolved, Entries.attributes_put_of_ne (by decide)]
      obtain ⟨_, _, overridden, overrides, shape⟩ := attributes_of_descend ran
      have above : Flat kind items parent.1 ancestor := ⟨parent.2, elders, older, ended⟩
      obtain ⟨value, given, holds⟩ := tells
      rw [shape]
      exact toldAt_kept (unique.overrides found (unique.flat above) overrides)
        (toldAt_overrides leaf unnamed holds
          (Draft.inPlace_of_document (single key mark item found) (attributes key mark item found))
          (fun entry member mark fields after => inPlace.step key _ item found entry member mark fields after)
          distinct (Entries.mem_of_get? given) (inPlace.flat above) overrides)

end Lineage

/-! ### Finishing -/

namespace Stages

open Draft (ownField)

variable {d : Definitions} {graph : Graph} (stages : Stages d graph)
variable {kind : ItemKind} {key name field text : Text}

def writtenFields : List Text :=
  Draft.enrichedFields ++ (["requirement", "type", "object_type", "object_name"] : List Text)

theorem told_record {enabled : Bool} {flat item dated required result : Fields}
    (preserved : Draft.Preserved flat item)
    (passes : Draft.Passes stages.closed stages.required enabled kind key item dated required result)
    (unwritten : field ∉ writtenFields)
    (tells : ToldAt name field (some (.text text)) (Entries.attributes flat)) :
    ∃ fields, Entries.get? name (Attribute.ofValues (Entries.attributes result)) =
        some (Attribute.ofFields name fields) ∧ Entries.get? field fields = some (.text text) := by
  obtain ⟨enriched, finished⟩ := not_or.mp (List.mem_append.not.mp unwritten)
  obtain ⟨requirement, referring⟩ := not_or.mp (List.mem_cons.not.mp finished)
  obtain ⟨value, found, holds⟩ := tells
  obtain ⟨known, objects, renewed⟩ := preserved.renewed
  have own : ownField field name (Entries.attributes item) = some (.text text) := by
    obtain ⟨fields, rfl, said⟩ := holds
    rw [renewed field name enriched, Draft.ownField_of_get? found, Value.inner_record, said, Option.map_some,
      (renews_refresh objects).leaf _ rfl]
  obtain ⟨value, held, said⟩ : ∃ value, Entries.get? name (Entries.attributes item) = some value ∧
      Entries.get? field value.inner = some (.text text) := by
    cases held : Entries.get? name (Entries.attributes item) with
    | none =>
        rw [Draft.ownField_of_absent held] at own
        cases own
    | some value => exact ⟨value, rfl, (Draft.ownField_of_get? held).symm.trans own⟩
  obtain ⟨siblings, collected, treated, _, _⟩ := passes.steps
  have present : Entries.get? name (Draft.withSiblings (Entries.attributes item) siblings) = some value := by
    rcases collected with ⟨_, rfl⟩ | ⟨_, each⟩
    · exact held
    · exact Draft.get?_addSiblings each held
  obtain ⟨result, shown, finishes⟩ := treated.get?_left present
  cases value with
  | object mark fields =>
      obtain ⟨own, filled, shape, same⟩ := Draft.orOptional_object mark fields
      have distinct : Entries.Distinct filled := by
        have made := Draft.distinct_orOptional (preserved.inPlace _ (Entries.mem_of_get? held)).distinct
        rwa [shape] at made
      rw [shape] at finishes
      obtain ⟨last, final, rfl, told⟩ := stages.finished_fields finishes
      refine ⟨final, Attribute.get?_ofValues shown, ?_⟩
      have given : Entries.get? field filled = some (.text text) :=
        (same field fun here => requirement (List.mem_singleton.mp here)).trans said
      rw [told field referring, stages.over_given distinct given, merge_apart (Or.inr rfl)]
  | null | bool _ | int _ | float _ | text _ | array _ => cases said

end Stages

theorem Graph.told_record {d : Definitions} {graph : Graph} (documents : d.Documents)
    (built : (Graph.ofDefinitions d).Yields graph) {kind : ItemKind} {key name field text : Text} {entity : Entity}
    {fields : Fields} (unwritten : field ∉ Stages.writtenFields)
    (shown : Entries.get? key (graph.entities kind) = some entity)
    (found : Entries.get? key (d.items kind).inner = some (.record fields))
    (tells : ToldAt name field (some (.text text)) (Entries.attributes fields)) :
    ∃ fields, Entries.get? name entity.attributes = some (Attribute.ofFields name fields) ∧
      Entries.get? field fields = some (.text text) := by
  obtain ⟨stages⟩ := exists_stages built
  have unnamed : field ≠ "_source" := fun same => unwritten (same ▸ by decide)
  cases kind with
  | eventClass =>
      obtain ⟨enabled, item, dated, required, result, _, held, passes, reads⟩ := stages.passes_class shown
      obtain ⟨flat, computed, preserved⟩ := stages.preserved_class documents held
      have told := computed.toldAt documents.classes.inner documents.singleClasses found rfl unnamed tells
      exact (readsItem_of_ok reads).attributes ▸ stages.told_record preserved passes unwritten told
  | object =>
      obtain ⟨enabled, item, dated, required, result, _, held, passes, reads⟩ := stages.passes_object shown
      obtain ⟨flat, computed, preserved⟩ := stages.preserved_object documents held
      have told := computed.toldAt documents.objects.inner documents.singleObjects found rfl unnamed tells
      exact (readsItem_of_ok reads).attributes ▸ stages.told_record preserved passes unwritten told
  | profile => cases shown

end EventSchema
