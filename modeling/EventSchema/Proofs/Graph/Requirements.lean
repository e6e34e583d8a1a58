import EventSchema.Proofs.Graph.Finished

/-!
What a graph requires of its attributes.

Missing requirements are filled in before the attributes are finished over the dictionary. So an attribute
has the requirement that its item gives it, and it is optional if the item gives none, whatever the
dictionary requires.
-/

set_option autoImplicit false

namespace EventSchema

open Value

private theorem Value.eq_null_of_isNull {value : Value} (null : value.isNull = true) : value = .null := by
  cases value with
  | null => rfl
  | bool _ | int _ | float _ | text _ | array _ | object _ _ => cases null

/-! ### One attribute -/

/-- The requirement that the dictionary gives the attributes of a name, null if it gives none. -/
def Dictionary.requirementOf (dictionary : Dictionary) (name : Text) : Value :=
  match Entries.get? name dictionary.attributes with
  | some shared => shared.requirement
  | none => .null

namespace Draft

def ownRequirement (name : Text) (attributes : Fields) : Value :=
  (ownField "requirement" name attributes).getD .null

def effectiveRequirement (own : Value) : Value := if own.isNull then .text "optional" else own

/-- An attribute that is made optional or left has the requirement that is effective for it. -/
theorem orOptional_requirement {value : Value} {mark : Option Nat} {field : Fields}
    (shape : orOptional value = .object mark field) : Entries.get? "requirement" field =
      some (effectiveRequirement (Entries.orNull "requirement" value.inner)) := by
  unfold effectiveRequirement
  cases value with
  | object own given =>
      rw [orOptional] at shape
      rw [Value.inner]
      split at shape
      · rename_i missing
        cases shape
        rw [Entries.get?_put_self, if_pos missing]
      · rename_i set
        cases shape
        rw [if_neg set]
        unfold Entries.orNull Entries.getOr at set ⊢
        cases found : Entries.get? "requirement" field with
        | none =>
            rw [found] at set
            exact absurd rfl set
        | some requirement => rfl
  | null | bool _ | int _ | float _ | text _ | array _ => cases shape

end Draft

private theorem attributes_of_profile {key : Text} {item : Fields} {profile : Profile}
    (ran : Profile.ofFields key item = .ok profile) :
    profile.attributes = Attribute.ofValues (Entries.attributes item) := by
  unfold Profile.ofFields at ran
  obtain ⟨attributes, opened, ran⟩ := bind_eq_ok.mp ran
  obtain ⟨fields, read, same⟩ := map_eq_ok.mp opened
  rw [← pure_eq_ok.mp ran, ← same, Lineage.attributes_of_fieldsOrNone read]

namespace Stages

open Draft

variable {d : Definitions} {graph : Graph} (stages : Stages d graph)

private theorem requirementOf_eq (name : Text) :
    graph.dictionary.requirementOf name = ownRequirement name stages.required.attributes := by
  unfold Dictionary.requirementOf ownRequirement
  rw [stages.get?_dictionary]
  cases found : Entries.get? name stages.required.attributes with
  | none =>
      rw [ownField_of_absent found]
      rfl
  | some shared =>
      rw [ownField_of_get? found]
      rfl

private theorem requirement_finished {whole : Fields} {name : Text} {value result : Value}
    (single : Entries.Distinct value.inner)
    (ran : stages.required.finishAttribute whole name (orOptional value) = .ok result) :
    ∃ own fields, result = .object own fields ∧ Entries.orNull "requirement" fields =
      Value.merge (graph.dictionary.requirementOf name).unshared
        (effectiveRequirement (Entries.orNull "requirement" value.inner)) := by
  obtain ⟨mark, field, shape⟩ : ∃ mark field, orOptional value = .object mark field := by
    obtain ⟨mark, field, _, _, shape, _⟩ := finishAttribute_ok
      (fun shared known => stages.isObject_dictionary known) ran
    exact ⟨mark, field, shape⟩
  have given := orOptional_requirement shape
  have distinct := distinct_orOptional single
  rw [shape, Value.inner] at distinct
  rw [shape] at ran
  obtain ⟨own, fields, rfl, kept⟩ := stages.finished_fields ran
  refine ⟨own, fields, rfl, ?_⟩
  rw [Entries.orNull, Entries.getOr, kept "requirement" (by decide), stages.over_given distinct given,
    Option.getD_some, stages.requirementOf_eq, ownRequirement]

end Stages

/-! ### The attributes of an item -/

/-- Records of attributes as their item requires them. What the dictionary requires of an attribute is
merged into a requirement that is an object, and left out otherwise. -/
structure Graph.Requires (graph : Graph) (attributes : Fields) (records : Entries Attribute) : Prop where
  present : ∀ name record, Entries.get? name records = some record → record.requirement.isNull = false
  unset : ∀ name record, Entries.get? name records = some record →
    (Draft.ownRequirement name attributes).isNull = true → record.requirement = .text "optional"
  own : ∀ name record, Entries.get? name records = some record →
    (Draft.ownRequirement name attributes).isNull = false →
    (Draft.ownRequirement name attributes).isObject = false →
    record.requirement = Draft.ownRequirement name attributes
  merged : ∀ name record, Entries.get? name records = some record →
    (Draft.ownRequirement name attributes).isObject = true → (Draft.ownRequirement name attributes).Plain →
    record.requirement =
      Value.merge (graph.dictionary.requirementOf name).unshared (Draft.ownRequirement name attributes)

namespace Draft

private theorem isNull_effective (own : Value) : (effectiveRequirement own).isNull = false := by
  unfold effectiveRequirement
  split
  · rfl
  · rename_i given
    exact Bool.eq_false_iff.mpr given

private theorem isNull_merge (dest : Value) {source : Value} (given : source.isNull = false) :
    (Value.merge dest source).isNull = false := by
  cases object : source.isObject with
  | false => rwa [Value.merge_apart (Or.inr object)]
  | true =>
      have merged := Value.isObject_merge dest object
      cases shape : Value.merge dest source with
      | null =>
          rw [shape] at merged
          cases merged
      | bool _ | int _ | float _ | text _ | array _ | object _ _ => rfl

end Draft

/-- Requirements that were effective before everything in several places was renewed. -/
theorem Graph.Requires.of_renewed {graph : Graph} {attributes : Fields} {records : Entries Attribute}
    {known : Occurrences} (objects : ∀ entry ∈ known, entry.2.isObject = true)
    (each : ∀ name record, Entries.get? name records = some record →
      record.requirement = Value.merge (graph.dictionary.requirementOf name).unshared
        (Draft.effectiveRequirement (Value.refresh known (Draft.ownRequirement name attributes)))) :
    graph.Requires attributes records := by
  have renews := Value.renews_refresh objects
  constructor
  · intro name record found
    rw [each name record found]
    exact Draft.isNull_merge _ (Draft.isNull_effective _)
  · intro name record found missing
    have null : Draft.ownRequirement name attributes = .null := Value.eq_null_of_isNull missing
    rw [each name record found, null, renews.leaf _ rfl]
    exact Value.merge_apart (Or.inr rfl)
  · intro name record found given leaf
    rw [each name record found, renews.leaf _ leaf, Draft.effectiveRequirement,
      if_neg (Bool.eq_false_iff.mp given)]
    exact Value.merge_apart (Or.inr leaf)
  · intro name record found object plain
    have given : ¬(Draft.ownRequirement name attributes).isNull = true := by
      intro null
      rw [Value.eq_null_of_isNull null] at object
      cases object
    rw [each name record found, Value.refresh_of_plain _ _ plain, Draft.effectiveRequirement, if_neg given]

namespace Stages

open Draft

variable {d : Definitions} {graph : Graph} (stages : Stages d graph)

private theorem effective {whole attributes siblings finished : Fields} (distinct : Entries.Distinct attributes)
    (single : ∀ entry ∈ attributes, Entries.Distinct entry.2.inner)
      (added : SiblingsOf stages.closed attributes siblings)
    (treated : Entries.Related (fun name value result =>
        stages.required.finishAttribute whole name (orOptional value) = .ok result)
      (withSiblings attributes siblings) finished) {name : Text} {record : Attribute}
    (found : Entries.get? name (Attribute.ofValues finished) = some record) :
    record.requirement = Value.merge (graph.dictionary.requirementOf name).unshared
      (effectiveRequirement (ownRequirement name attributes)) := by
  have unique := treated.distinct (distinct_withSiblings distinct siblings)
  obtain ⟨mark, field, known, rfl⟩ := Attribute.exists_of_get?_ofValues unique found
  obtain ⟨value, held, ran⟩ := treated.get?_right known
  have settled (own : Entries.Distinct value.inner) : Entries.orNull "requirement" field =
      Value.merge (graph.dictionary.requirementOf name).unshared
        (effectiveRequirement (Entries.orNull "requirement" value.inner)) := by
    obtain ⟨own, fields, same, told⟩ := stages.requirement_finished own ran
    cases same
    exact told
  change Entries.orNull "requirement" field = _
  rcases added.get? distinct held with old | ⟨absent, origin, before, _, present, made⟩
  · rw [settled (single _ (Entries.mem_of_get? old)), ownRequirement, ownField_of_get? old]
    rfl
  · obtain ⟨mark', inner, rfl, rfl⟩ := siblingOf?_ok made
    have own : Entries.Distinct (siblingFields inner) :=
      distinct_siblingFields (single _ (Entries.mem_of_get? present))
    rw [settled own, ownRequirement, ownField_of_absent absent, Value.inner_record, siblingFields,
      Entries.orNull_put_self]
    rfl

theorem requires {enabled : Bool} {kind : ItemKind} {key : Text} {flat item dated required result : Fields}
    (preserved : Preserved flat item)
    (passes : Passes stages.closed stages.required enabled kind key item dated required result) :
    graph.Requires (Entries.attributes flat) (Attribute.ofValues (Entries.attributes result)) := by
  obtain ⟨siblings, collected, treated, _, _⟩ := passes.steps
  obtain ⟨known, objects, renewed⟩ := preserved.renewed
  have added : SiblingsOf stages.closed (Entries.attributes item) siblings := by
    rcases collected with ⟨_, none⟩ | ⟨_, each⟩
    · exact Or.inl none
    · exact Or.inr each
  refine Graph.Requires.of_renewed objects fun name record found => ?_
  rw [stages.effective preserved.distinct (fun entry member => (preserved.inPlace entry member).distinct) added
    treated found, ownRequirement,
    renewed "requirement" name (by decide), ownRequirement]
  cases ownField "requirement" name (Entries.attributes flat) with
  | none => rw [Option.map_none, Option.getD_none, (Value.renews_refresh objects).leaf _ rfl]
  | some own => rw [Option.map_some, Option.getD_some, Option.getD_some]

/-! ### Profiles -/

/-- Nothing writes the profiles before their requirements are filled in. -/
theorem profiles_dated : stages.dated.profiles = d.profiles := by
  obtain ⟨_, _, _, dated⟩ := stages.dated_eq
  obtain ⟨_, _, _, start, _⟩ := Draft.ofDefinitions_ok stages.starting
  rw [dated, ← start]
  rfl

/-- The profiles of the graph are those of the definitions. Each is filled in, finished and read. -/
theorem related_profiles : ∃ named, d.profiles.asFields = .ok named ∧
    Entries.Related (fun key value profile => ∃ mark item whole missing last,
      value = .object mark item ∧ requireItem .profile key item = .ok (whole, missing) ∧
      stages.required.finishItem whole = .ok last ∧ Profile.ofFields key last = .ok profile)
      named graph.profiles := by
  obtain ⟨named, done, opened, same, requires⟩ := requireAll_profiles stages.requiring
  obtain ⟨named', results, opened', same', finishes⟩ := finish_profiles stages.finishing
  obtain ⟨_, _, _, _, _, _, opened'', reads⟩ := Graph.of_draft stages.reading
  rw [same'] at opened''
  cases opened''
  rw [same] at opened'
  cases opened'
  refine ⟨named, stages.profiles_dated ▸ opened, ?_⟩
  have read : Entries.Related (fun key fields profile => Profile.ofFields key fields = .ok profile)
      results graph.profiles := List.forall₂_map_left_iff.mp reads
  refine (Entries.Related.trans requires (Entries.Related.trans finishes read)).imp ?_
  rintro key value profile ⟨required, ⟨item, whole, missing, inside, requiring, rfl⟩, last,
    ⟨whole', opening, finishing⟩, read⟩
  obtain ⟨mark, rfl⟩ := Value.inner_of_asFields inside
  cases opening
  exact ⟨mark, item, whole, missing, last, rfl, requiring, finishing, read⟩

/-- A profile of the graph has the attributes of the definitions, made optional or left and finished. -/
theorem passes_profile {key : Text} {profile : Profile} (found : Entries.get? key graph.profiles = some profile) :
    ∃ mark item whole finished, Entries.get? key d.profiles.inner = some (.object mark item) ∧
      Entries.Related (fun name value result =>
          stages.required.finishAttribute whole name (orOptional value) = .ok result)
        (Entries.attributes item) finished ∧
      profile.attributes = Attribute.ofValues finished := by
  obtain ⟨named, opened, related⟩ := stages.related_profiles
  obtain ⟨own, shape⟩ := Value.inner_of_asFields opened
  obtain ⟨value, known, mark, item, whole, missing, last, rfl, requiring, finishing, read⟩ :=
    related.get?_right found
  have treated := (finishItem_ok finishing).1
  rw [(attributes_requireItem requiring).1] at treated
  refine ⟨mark, item, whole, _, ?_, List.forall₂_map_left_iff.mp treated, attributes_of_profile read⟩
  rw [shape]
  exact known

end Stages

/-! ### The graph -/

/-- Every attribute of a graph is required as its item says: it is optional if the item does not give it a
requirement. -/
theorem Graph.requirements {d : Definitions} {graph : Graph} (documents : d.Documents)
    (built : (Graph.ofDefinitions d).Yields graph) :
    (∀ key entity, Entries.get? key graph.classes = some entity →
      ∃ flat, Lineage.Flat .eventClass d.classes.inner key flat ∧
        graph.Requires (Entries.attributes flat) entity.attributes) ∧
    (∀ key entity, Entries.get? key graph.objects = some entity →
      ∃ flat, Lineage.Flat .object d.objects.inner key flat ∧
        graph.Requires (Entries.attributes flat) entity.attributes) ∧
    ∀ key profile, Entries.get? key graph.profiles = some profile →
      ∃ mark item, Entries.get? key d.profiles.inner = some (.object mark item) ∧
        graph.Requires (Entries.attributes item) profile.attributes := by
  obtain ⟨stages⟩ := exists_stages built
  refine ⟨?_, ?_, ?_⟩
  · intro key entity found
    obtain ⟨enabled, item, dated, required, result, _, held, passes, reads⟩ := stages.passes_class found
    obtain ⟨flat, computed, preserved⟩ := stages.preserved_class documents held
    exact ⟨flat, computed, (readsItem_of_ok reads).attributes ▸ stages.requires preserved passes⟩
  · intro key entity found
    obtain ⟨enabled, item, dated, required, result, _, held, passes, reads⟩ := stages.passes_object found
    obtain ⟨flat, computed, preserved⟩ := stages.preserved_object documents held
    exact ⟨flat, computed, (readsItem_of_ok reads).attributes ▸ stages.requires preserved passes⟩
  · intro key profile found
    obtain ⟨mark, item, whole, finished, held, treated, attributes⟩ := stages.passes_profile found
    have keyed := (keyed_object.mp (documents.profiles.inner.of_get? held)).attributes
    have single : ∀ entry ∈ Entries.attributes item, Entries.Distinct entry.2.inner := fun entry member =>
      (keyed.of_mem member).inner.distinct
    refine ⟨mark, item, held, Graph.Requires.of_renewed (List.forall_mem_nil _) fun name record known => ?_⟩
    rw [Value.refresh_nil]
    exact stages.effective keyed.distinct single (Or.inl rfl) treated (attributes ▸ known)

namespace Graph

/-- A class with an attribute that says nothing of its requirement and one that does, both of which the
dictionary requires. -/
def requiring : Definitions where
  version := .text "1.0.0"
  categories := .record []
  dictionary := .record [
    ("attributes", .record [
      ("owner", .record [("type", .text "string_t"), ("requirement", .text "required")]),
      ("label", .record [("type", .text "string_t"), ("requirement", .text "required")])]),
    ("types", .record [("attributes", .record [("string_t", .record [])])])]
  classes := .record [("base_event", .record [("attributes", .record [
    ("owner", .record [("caption", .text "Owner")]),
    ("label", .record [("requirement", .text "recommended")])])])]
  objects := .record []
  profiles := .record []
  extensions := []

private theorem documents_requiring : requiring.Documents :=
  Definitions.documents_of_written (by decide) (by decide) (by decide) (by decide) (by decide)

/-- What a class and the dictionary require of an attribute. -/
def requirementsOf (name : Text) (graph : Graph) : Option (Value × Value) :=
  (Entries.get? "base_event" graph.classes).bind fun entity =>
    (Entries.get? name entity.attributes).map fun record => (record.requirement, graph.dictionary.requirementOf name)

/-- What the dictionary requires is not required of an attribute whose class says nothing. -/
theorem requirements_fail_requiring : ∃ graph, (ofDefinitions requiring).Yields graph ∧
    requirementsOf "owner" graph = some (.text "optional", .text "required") := by
  have evaluated : ((ofDefinitions requiring).outcome {}).1.toOption.map (requirementsOf "owner") =
      some (some (.text "optional", .text "required")) := by
    decide +kernel
  exact Act.exists_of_outcome evaluated

def requiringFlat : Fields := [("attributes", .record [
  ("owner", .record [("caption", .text "Owner"), ("_source", .text "base_event")]),
  ("label", .record [("requirement", .text "recommended"), ("_source", .text "base_event")])])]

theorem requirements_requiring : ∃ graph entity, (ofDefinitions requiring).Yields graph ∧
    Entries.get? "base_event" graph.classes = some entity ∧
    (∃ owner, Entries.get? "owner" entity.attributes = some owner ∧ owner.requirement = .text "optional") ∧
    ∃ label, Entries.get? "label" entity.attributes = some label ∧ label.requirement = .text "recommended" := by
  have evaluated : ((ofDefinitions requiring).outcome {}).1.toOption.map (fun graph =>
      ((requirementsOf "owner" graph).isSome, (requirementsOf "label" graph).isSome)) = some (true, true) := by
    decide +kernel
  obtain ⟨graph, built, shown⟩ := Act.exists_of_outcome evaluated
  obtain ⟨owned, labelled⟩ := Prod.mk.inj shown
  have listed {name : Text} (present : (requirementsOf name graph).isSome = true) : ∃ entity record,
      Entries.get? "base_event" graph.classes = some entity ∧ Entries.get? name entity.attributes = some record := by
    obtain ⟨told, known⟩ := Option.isSome_iff_exists.mp present
    obtain ⟨entity, found, known⟩ := Option.bind_eq_some_iff.mp known
    obtain ⟨record, held, _⟩ := Option.map_eq_some_iff.mp known
    exact ⟨entity, record, found, held⟩
  obtain ⟨entity, owner, found, ownerHeld⟩ := listed owned
  obtain ⟨_, label, found', labelHeld⟩ := listed labelled
  cases found.symm.trans found'
  obtain ⟨flat, computed, requires⟩ := (requirements documents_requiring built).1 _ _ found
  obtain rfl : flat = requiringFlat := computed.unique ⟨_, [], .root rfl (Or.inr rfl), rfl⟩
  exact ⟨graph, entity, built, found, ⟨owner, ownerHeld, requires.unset _ _ ownerHeld rfl⟩,
    label, labelHeld, requires.own _ _ labelHeld rfl rfl⟩

end Graph

end EventSchema
