import EventSchema.Proofs.Graph.Carried
import EventSchema.Proofs.Graph.Steady
import EventSchema.Proofs.Scope

/-!
What the attributes of the dictionary refer to.

An attribute of the dictionary is of a type of the dictionary, or it means an object, or it is reported. The
objects are those that are not hidden, and no later stage adds or takes out any of them, so what an attribute
was resolved to is right about the graph as well.
-/

set_option autoImplicit false

namespace EventSchema

/-! ### One attribute -/

namespace Draft

/-- What an attribute of the dictionary names as an object: its object type if it says that it is an object,
its type otherwise. -/
def namedObject (field : Fields) : Value :=
  if (Entries.orNull "type" field).equals (.text "object_t") then Entries.orNull "object_type" field
  else Entries.orNull "type" field

def Untyped (types field : Fields) : Prop :=
  ∀ type, Entries.get? "type" field = some (.text type) → Entries.get? type types = none

def referenceProblem (name : Text) (field : Fields) : Notice :=
  if (Entries.orNull "type" field).isNull then .fieldWithoutType (dictionaryContext name field)
  else .undefinedType (dictionaryContext name field) (namedObject field)

inductive Resolution (types : Fields) (objects : Entries Fields) (name : Text) (mark : Option Nat)
    (field : Fields) : Value → List Notice → Prop
  | typed {type : Text} {definition : Value} (given : Entries.get? "type" field = some (.text type))
      (known : Entries.get? type types = some definition) :
      Resolution types objects name mark field
        (.record (Entries.put "type_name" (Entries.getOr "caption" definition.inner (.text ∅)) field)) []
  | object {key : Text} {object : Fields} (untyped : Untyped types field)
      (means : Scope.Means objects (namedObject field) (Entries.get? "extension" field) key)
      (held : Entries.get? key objects = some object) :
      Resolution types objects name mark field
        (.record (Entries.put "object_name" (Entries.getOr "caption" object (.text ∅))
          (Entries.put "object_type" (.text key) (Entries.put "type" (.text "object_t") field)))) []
  | nothing (untyped : Untyped types field)
      (meaningless : ∀ key, ¬Scope.Means objects (namedObject field) (Entries.get? "extension" field) key) :
      Resolution types objects name mark field (.object mark field) [referenceProblem name field]

/-- A name that is not given means nothing. -/
theorem meaningless_of_null {objects : Entries Fields} {field : Fields}
    (missing : (Entries.orNull "type" field).isNull = true) (scope : Option Value) (key : Text) :
    ¬Scope.Means objects (namedObject field) scope key := by
  intro means
  have given := means.given
  have null : Entries.orNull "type" field = .null := by
    cases known : Entries.orNull "type" field with
    | null => rfl
    | bool _ | int _ | float _ | text _ | array _ | object _ _ => rw [known] at missing; cases missing
  rw [namedObject, null] at given
  cases given

private theorem untyped_of_null {types field : Fields} (missing : (Entries.orNull "type" field).isNull = true) :
    Untyped types field := by
  intro type given
  rw [Entries.orNull, Entries.getOr, given] at missing
  cases missing

private theorem untyped_of_lookup? {types field : Fields}
    (absent : (Entries.orNull "type" field).lookup? types = .ok none) : Untyped types field := by
  intro type given
  rw [Entries.orNull, Entries.getOr, given] at absent
  exact Except.ok.inj absent

private theorem exists_of_lookup? {types field : Fields} {definition : Value}
    (found : (Entries.orNull "type" field).lookup? types = .ok (some definition)) :
    ∃ type, Entries.get? "type" field = some (.text type) ∧ Entries.get? type types = some definition := by
  cases given : Entries.get? "type" field with
  | none =>
      rw [Entries.orNull, Entries.getOr, given] at found
      cases found
  | some value =>
      rw [Entries.orNull, Entries.getOr, given, Option.getD_some] at found
      cases value with
      | text type => exact ⟨type, rfl, Except.ok.inj found⟩
      | null | bool _ | int _ | float _ | array _ | object _ _ => cases found

private theorem resolveType_tells {draft : Draft} {name : Text} {value result : Value} {told : List Notice}
    (tells : (draft.resolveType name value).Tells result told) : ∃ mark field, value = .object mark field ∧
      Resolution draft.types draft.objects name mark field result told := by
  unfold resolveType at tells
  obtain ⟨field, opened, tells⟩ := Act.tells_lift_bind tells
  obtain ⟨mark, rfl⟩ := Value.inner_of_asFields opened
  refine ⟨mark, field, rfl, ?_⟩
  dsimp only at tells
  split at tells
  · rename_i missing
    obtain ⟨rfl, rfl⟩ := Act.tells_warn_pure rfl tells
    have problem : referenceProblem name field = .fieldWithoutType (dictionaryContext name field) := if_pos missing
    exact problem ▸ .nothing (untyped_of_null missing) (meaningless_of_null missing _)
  · rename_i given
    obtain ⟨known, looked, tells⟩ := Act.tells_lift_bind tells
    cases known with
    | some definition =>
        obtain ⟨type, named, found⟩ := exists_of_lookup? looked
        obtain ⟨fields, opened, tells⟩ := Act.tells_lift_bind tells
        obtain ⟨rfl, rfl⟩ := Act.tells_pure tells
        obtain ⟨_, rfl⟩ := Value.inner_of_asFields opened
        exact .typed named found
    | none =>
        have untyped := untyped_of_lookup? looked
        obtain ⟨found, searched, tells⟩ := Act.tells_lift_bind tells
        cases found with
        | some key =>
            obtain ⟨key, rfl, means⟩ := Scope.find?_eq_some.mp searched
            obtain ⟨fields, refers, tells⟩ := Act.tells_lift_bind tells
            obtain ⟨rfl, rfl⟩ := Act.tells_pure tells
            obtain ⟨object, held⟩ := Option.isSome_iff_exists.mp means.has
            rw [refer_text refers, held, Option.getD_some]
            exact .object untyped means held
        | none =>
            obtain ⟨rfl, rfl⟩ := Act.tells_warn_pure rfl tells
            have problem : referenceProblem name field =
                .undefinedType (dictionaryContext name field) (namedObject field) := if_neg given
            refine problem ▸ .nothing untyped fun key means => ?_
            have found := searched.symm.trans (Scope.find?_eq_some.mpr ⟨key, rfl, means⟩)
            cases Except.ok.inj found

end Draft

/-! ### The whole dictionary -/

/-- The notice tells of an attribute of the dictionary that refers to nothing. -/
def Notice.isReferenceProblem : Notice → Bool
  | fieldWithoutType _ | undefinedType _ _ => true
  | _ => false

private theorem Notice.topic_of_isReferenceProblem {notice : Notice} (problem : notice.isReferenceProblem = true) :
    notice.topic = .dictionary := by
  unfold isReferenceProblem at problem
  split at problem
  · rfl
  · rfl
  · cases problem

namespace Draft

private theorem isReferenceProblem_referenceProblem (name : Text) (field : Fields) :
    (referenceProblem name field).isReferenceProblem = true := by
  unfold referenceProblem
  split
  · rfl
  · rfl

theorem Resolution.filter {types : Fields} {objects : Entries Fields} {name : Text} {mark : Option Nat}
    {field : Fields} {result : Value} {told : List Notice}
    (resolution : Resolution types objects name mark field result told) :
    told.filter Notice.isReferenceProblem = told := by
  cases resolution with
  | typed => rfl
  | object => rfl
  | nothing => rw [List.filter_cons, if_pos (isReferenceProblem_referenceProblem name field), List.filter_nil]

private theorem get?_foldl_putNew {siblings attributes : Fields} {name : Text} {value : Value}
    (found : Entries.get? name attributes = some value) :
    Entries.get? name (siblings.foldl (fun all sibling => Entries.putNew sibling.1 sibling.2 all) attributes) =
      some value := by
  induction siblings generalizing attributes with
  | nil => exact found
  | cons head rest ih =>
      rw [List.foldl_cons]
      refine ih ?_
      rw [Entries.get?_putNew, if_neg, found]
      rintro ⟨rfl, absent⟩
      rw [found] at absent
      cases absent

private theorem resolveDictionary_tells {draft resolved : Draft} {notices : List Notice}
    (tells : draft.resolveDictionary.Tells resolved notices) : ∃ told : Entries (Value × List Notice),
      Entries.Related (fun name value one => ∃ mark field, value = .object mark field ∧
        Resolution draft.types draft.objects name mark field one.1 one.2) draft.attributes told ∧
      (∀ name one, Entries.get? name told = some one → Entries.get? name resolved.attributes = some one.1) ∧
      notices.filter Notice.isReferenceProblem = told.flatMap fun one => one.2.2 := by
  have steady (entry : Text × Value) := draft.steady_resolveType entry.1 entry.2
  unfold resolveDictionary at tells
  obtain ⟨attributes, begun, ended, first, last, rfl⟩ := Act.tells_bind
    (Act.steady_mapEntries fun entry _ => steady entry) (fun _ => (Act.steady_lift _).bind fun enabled => by
      split
      · exact (Act.steady_note rfl).bind fun _ => (Act.steady_lift _).bind fun _ => Act.steady_pure _
      · exact Act.steady_pure _) tells
  obtain ⟨told, related, rfl, rfl⟩ := Act.tells_mapEntries steady first
  have resolutions := related.imp fun _ _ _ tells => resolveType_tells tells
  have shown (name : Text) (one : Value × List Notice) (found : Entries.get? name told = some one) :
      Entries.get? name (told.map fun one => (one.1, one.2.1)) = some one.1 :=
    (Entries.get?_mapValues Prod.fst name told).trans (congrArg (Option.map Prod.fst) found)
  have own : (told.flatMap fun one => one.2.2).filter Notice.isReferenceProblem =
      told.flatMap fun one => one.2.2 := by
    rw [List.filter_flatMap]
    refine List.flatMap_congr fun one member => ?_
    obtain ⟨_, _, _, _, _, _, resolution⟩ := exists_left_of_mem resolutions member
    exact resolution.filter
  obtain ⟨enabled, _, last⟩ := Act.tells_lift_bind last
  cases enabled with
  | false =>
      obtain ⟨rfl, rfl⟩ := Act.tells_pure last
      rw [List.append_nil]
      exact ⟨told, resolutions, shown, own⟩
  | true =>
      obtain ⟨_, noted, rest, note, adding, rfl⟩ := Act.tells_bind (Act.steady_note rfl)
        (fun _ => (Act.steady_lift _).bind fun _ => Act.steady_pure _) last
      obtain ⟨siblings, _, done⟩ := Act.tells_lift_bind adding
      obtain ⟨rfl, rfl⟩ := Act.tells_pure done
      rw [Act.tells_note rfl note, List.filter_append, own]
      exact ⟨told, resolutions, fun name one found => get?_foldl_putNew (shown name one found), List.append_nil _⟩

end Draft

namespace Stages

variable {d : Definitions} {graph : Graph} (stages : Stages d graph)

private theorem means_iff {name : Value} {scope : Option Value} {key : Text} :
    Scope.Means stages.hidden.objects name scope key ↔ Scope.Means graph.objects name scope key := by
  have same (key : Text) : Entries.has key graph.objects = Entries.has key stages.hidden.objects :=
    Entries.has_congr (stages.keys_objects.trans stages.related_objects.keys_eq) key
  exact ⟨fun means => means.congr same, fun means => means.congr fun key => (same key).symm⟩

private theorem caption_object {key : Text} {object : Fields} (held : Entries.get? key stages.hidden.objects =
    some object) :
    ∃ entity, Entries.get? key graph.objects = some entity ∧ entity.caption = Entries.orNull "caption" object := by
  obtain ⟨_, _, _, finished, _, finishes⟩ := Draft.finish_ok stages.finishing
  obtain ⟨_, _, reads⟩ := Draft.graph_ok stages.reading
  have objects : stages.finished.objects = _ := congrArg Draft.objects finished
  obtain ⟨required, known, kept⟩ := Entries.Related.get?_left stages.related_objects held
  obtain ⟨result, shown, ran⟩ := finishes.get?_left known
  rw [objects] at reads
  obtain ⟨entity, found, read⟩ := reads.get?_left shown
  refine ⟨entity, found, ?_⟩
  have caption : Entries.get? "caption" result = Entries.get? "caption" object :=
    ((Draft.finishItem_ok ran).2 "caption" (by decide)).trans (kept "caption" (by decide))
  rw [← Entries.orNull_congr caption]
  unfold Entity.ofFields at read
  obtain ⟨_, _, read⟩ := bind_eq_ok.mp read
  obtain ⟨_, _, read⟩ := bind_eq_ok.mp read
  obtain ⟨_, _, read⟩ := bind_eq_ok.mp read
  rw [← pure_eq_ok.mp read]

end Stages

def ExactlyOne (first second third : Prop) : Prop :=
  (first ∧ ¬second ∧ ¬third) ∨ (¬first ∧ second ∧ ¬third) ∨ (¬first ∧ ¬second ∧ third)

namespace Graph

/-- An attribute of a type of the dictionary keeps it, and is called what the type is called. -/
def IsTyped (types field : Fields) (record : Attribute) (told : List Notice) : Prop :=
  ∃ type definition, Entries.get? "type" field = some (.text type) ∧ Entries.get? type types = some definition ∧
    record.type = .text type ∧ record.typeName = Entries.getOr "caption" definition.inner (.text ∅) ∧ told = []

/-- An attribute that means an object of the graph refers to it by its key, and is called what the object is
called. -/
def IsReferring (graph : Graph) (field : Fields) (record : Attribute) (told : List Notice) : Prop :=
  ∃ key entity, Scope.Means graph.objects (Draft.namedObject field) (Entries.get? "extension" field) key ∧
    Entries.get? key graph.objects = some entity ∧
    record.type = .text "object_t" ∧ record.objectType = .text key ∧
    (record.objectName = entity.caption ∨ entity.caption = .null ∧ record.objectName = .text ∅) ∧ told = []

def IsDangling (graph : Graph) (types : Fields) (name : Text) (field : Fields) (record : Attribute)
    (told : List Notice) : Prop :=
  Draft.Untyped types field ∧
    (∀ key, ¬Scope.Means graph.objects (Draft.namedObject field) (Entries.get? "extension" field) key) ∧
    record.type = Entries.orNull "type" field ∧ record.objectType = Entries.orNull "object_type" field ∧
    told = [Draft.referenceProblem name field] ∧ (Draft.referenceProblem name field).problem = { warnings := 1 }

/-- An attribute of the dictionary is in exactly one of the three cases, by its record in the graph and by what
was told of it. -/
def Resolves (graph : Graph) (types : Fields) (name : Text) (value : Value) (told : List Notice) : Prop :=
  ∃ mark field record, value = .object mark field ∧ Entries.get? name graph.dictionary.attributes = some record ∧
    ExactlyOne (IsTyped types field record told) (graph.IsReferring field record told)
      (graph.IsDangling types name field record told)

end Graph

namespace Draft

private theorem problem_referenceProblem (name : Text) (field : Fields) :
    (referenceProblem name field).problem = { warnings := 1 } := by
  unfold referenceProblem
  split
  · rfl
  · rfl

end Draft

/-- An attribute is resolved in one of three ways, whose outcomes tell them apart. -/
theorem Stages.exactlyOne_of_resolution {d : Definitions} {graph : Graph} (stages : Stages d graph)
    (untyped : Entries.get? "object_t" stages.hidden.types = none) {name : Text} {mark : Option Nat}
    {field : Fields} {result : Value} {told : List Notice}
    (resolution : Draft.Resolution stages.hidden.types stages.hidden.objects name mark field result told) :
    ∃ mark fields, result = .object mark fields ∧
      ExactlyOne (Graph.IsTyped stages.hidden.types field (.ofFields name fields) told)
        (graph.IsReferring field (.ofFields name fields) told)
        (graph.IsDangling stages.hidden.types name field (.ofFields name fields) told) := by
  cases resolution with
  | @typed type definition given known =>
      have kept : Entries.orNull "type" (Entries.put "type_name"
          (Entries.getOr "caption" definition.inner (.text ∅)) field) = .text type := by
        rw [Entries.orNull_put_of_ne (by decide), Entries.orNull, Entries.getOr, given, Option.getD_some]
      refine ⟨none, _, rfl, Or.inl ⟨⟨type, definition, given, known, kept, Entries.orNull_put_self .., rfl⟩, ?_, ?_⟩⟩
      · rintro ⟨_, _, _, _, referring, _⟩
        cases kept.symm.trans referring
        rw [known] at untyped
        cases untyped
      · rintro ⟨dangling, _⟩
        rw [dangling type given] at known
        cases known
  | @object key object foreign means held =>
      have means := stages.means_iff.mp means
      obtain ⟨entity, found, caption⟩ := stages.caption_object held
      refine ⟨none, _, rfl, Or.inr (Or.inl ⟨?_, ⟨key, entity, means, found, ?_, ?_, ?_, rfl⟩, ?_⟩)⟩
      · rintro ⟨type, definition, given, known, _⟩
        rw [foreign type given] at known
        cases known
      · change Entries.orNull "type" _ = _
        rw [Entries.orNull_put_of_ne (by decide), Entries.orNull_put_of_ne (by decide), Entries.orNull_put_self]
      · change Entries.orNull "object_type" _ = _
        rw [Entries.orNull_put_of_ne (by decide), Entries.orNull_put_self]
      · change Entries.orNull "object_name" _ = _ ∨ _ ∧ Entries.orNull "object_name" _ = _
        rw [Entries.orNull_put_self, caption, Entries.getOr, Entries.orNull, Entries.getOr]
        cases Entries.get? "caption" object with
        | none => exact Or.inr ⟨rfl, rfl⟩
        | some called => exact Or.inl rfl
      · rintro ⟨_, meaningless, _⟩
        exact meaningless key means
  | nothing foreign meaningless =>
      have meaningless (key : Text) := stages.means_iff.not.mp (meaningless key)
      refine ⟨mark, field, rfl, Or.inr (Or.inr ⟨?_, ?_, foreign, meaningless, rfl, rfl, rfl,
        Draft.problem_referenceProblem name field⟩)⟩
      · rintro ⟨type, definition, given, known, _⟩
        rw [foreign type given] at known
        cases known
      · rintro ⟨key, _, means, _⟩
        exact meaningless key means

/-- Every attribute of the dictionary is of a type of the dictionary, means an object of the graph, or is left
as it is with one warning that tells of it. No other warning tells of an attribute of the dictionary. -/
theorem Graph.dictionary_resolves {d : Definitions} {graph : Graph} {run after : Run} {attributes types : Fields}
    (shared : d.shared = .ok (attributes, types)) (distinct : Entries.Distinct attributes)
    (untyped : Entries.get? "object_t" types = none)
    (built : (Graph.ofDefinitions d).outcome run = (.ok graph, after)) :
    ∃ notices, after = run.reporting notices ∧ ∃ told : Entries (List Notice),
      Entries.Related (graph.Resolves types) attributes told ∧
      notices.filter Notice.isReferenceProblem = told.flatMap Prod.snd := by
  obtain ⟨notices, rfl, tells⟩ := (Graph.steady_ofDefinitions d).told built
  obtain ⟨stages⟩ := exists_stages tells.yields
  obtain ⟨_, shared', _⟩ := Draft.ofDefinitions_ok stages.starting
  cases shared.symm.trans shared'
  obtain ⟨resolving, resolves, same⟩ := stages.reported_dictionary (fun _ => Notice.topic_of_isReferenceProblem) tells
  obtain ⟨told, related, shown, own⟩ := Draft.resolveDictionary_tells resolves
  have once := related.distinct distinct
  have resolved : Entries.Related (fun name value one => graph.Resolves stages.hidden.types name value one.2)
      stages.hidden.attributes told := by
    refine Entries.Related.flip (related.flip.imp_mem ?_)
    rintro name one value member ⟨mark, field, shape, resolution⟩
    obtain ⟨_, fields, known, three⟩ := stages.exactlyOne_of_resolution untyped resolution
    have found := shown name one (Entries.get?_of_mem once member)
    rw [known, ← stages.dictionary_eq] at found
    refine ⟨mark, field, .ofFields name fields, shape, ?_, three⟩
    rw [stages.dictionary_attributes]
    exact Attribute.get?_ofValues found
  refine ⟨notices, rfl, told.map fun one => (one.1, one.2.2), ?_, ?_⟩
  · exact List.forall₂_map_right_iff.mpr resolved
  · rw [same, own, List.flatMap_map]

namespace Graph

/-- The attributes of a dictionary: one of a type, one of an extension that has an object of that name besides
the one of the base schema, and one that refers to nothing. -/
def badgeAttributes : Fields := [
  ("seen", .record [("type", .text "timestamp_t")]),
  ("badge", .record [("type", .text "badge"), ("extension", .text "corp")]),
  ("lost", .record [("type", .text "object_t"), ("object_type", .text "ghost")])]

def badgeTypes : Fields := [("timestamp_t", .record [("caption", .text "Timestamp")])]

def badgeDefinitions : Definitions where
  version := .text "1.0.0"
  categories := .record []
  dictionary := .record [("attributes", .record badgeAttributes),
    ("types", .record [("attributes", .record badgeTypes)])]
  classes := .record [("base_event", .record [])]
  objects := .record [("badge", .record [("caption", .text "Badge")]), ("corp/badge", .record [])]
  profiles := .record []
  extensions := []

/-- The definitions come to a graph, so each of the three attributes is in exactly one of the cases there. -/
theorem dictionary_resolves_badge : ∃ graph after,
    badgeDefinitions.shared = .ok (badgeAttributes, badgeTypes) ∧ Entries.Distinct badgeAttributes ∧
    Entries.get? "object_t" badgeTypes = none ∧
    (Graph.ofDefinitions badgeDefinitions).outcome {} = (.ok graph, after) ∧
    ∃ notices, after = Run.reporting notices {} ∧ ∃ told : Entries (List Notice),
      Entries.Related (graph.Resolves badgeTypes) badgeAttributes told ∧
      notices.filter Notice.isReferenceProblem = told.flatMap Prod.snd := by
  have evaluated : ((Graph.ofDefinitions badgeDefinitions).outcome {}).1.toOption.isSome = true := by
    decide +kernel
  cases built : (Graph.ofDefinitions badgeDefinitions).outcome {} with
  | mk outcome after =>
      rw [built] at evaluated
      cases outcome with
      | error fault => cases evaluated
      | ok graph =>
          have distinct : Entries.Distinct badgeAttributes := by decide
          exact ⟨graph, after, rfl, distinct, rfl, rfl, dictionary_resolves rfl distinct rfl built⟩

end Graph

end EventSchema
