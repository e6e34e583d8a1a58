import EventSchema.Proofs.Conservative
import EventSchema.Proofs.Range.Reported
import EventSchema.Repository

/-!
What becomes of identifiers out of their ranges.

A class or an activity whose number is out of its range is told of and counted, and the compilation goes
on. Only the uid of a category of an extension is taken as it stands: one that is not short ends the
compilation, with a fault that a reload does not report as one of the schema.
-/

set_option autoImplicit false

namespace EventSchema

open Draft (ownActivities)

variable {tree : Tree}

namespace Settings

/-- A compilation ends on an identifier out of its range only if an extension gives a category with a uid
that is not short, or a number that is none. A graph is built of classes whatever their numbers are: each
that is out of its range, and each activity that is, was told of and counted. -/
theorem identifiers_out_of_range (s : Settings) (tree : Tree) (run : Run) :
    (∀ fault after, (s.compile tree).outcome run = (.error (.range fault), after) →
      (s.compilation tree).EndsOn fault) ∧
    ∀ graph after d classes, (s.compile tree).outcome run = (.ok graph, after) →
      (s.compilation tree).definitions = .ok d → d.classes.asFields = .ok classes →
      ∀ key flat, Lineage.Flat .eventClass classes key flat →
        (key = "base_event" ∨ Entries.has "uid" flat = true) →
      (¬Uid.IsLocal (Entries.getOr "uid" flat (.int 0)) → ∃ told, after.notices = run.notices ++ told ∧
        .invalidUid key (Entries.getOr "uid" flat (.int 0)) ∈ told ∧
        run.diagnostics.errors < after.diagnostics.errors) ∧
      ∀ activity ∈ ownActivities (Entries.attributes flat), ∀ n, activity.1.parseInt? = some n →
        ¬(0 ≤ n ∧ n < 100) → ∃ told, after.notices = run.notices ++ told ∧
          .activityOutOfRange key n ∈ told ∧ run.diagnostics.warnings < after.diagnostics.warnings := by
  constructor
  · intro fault after ended
    have inRange := s.inRange_compile tree run
    rw [ended] at inRange
    exact inRange fault rfl
  · intro graph after d classes compiled defined opened key flat computed visible
    constructor
    · intro outside
      obtain ⟨told, notices, member, counted, _⟩ := tells_of_mentions compiled defined
        (Graph.mentions_ofDefinitions opened computed visible fun draft => Draft.mentions_identify.1 outside)
      exact ⟨told, notices, member, counted⟩
    · intro activity member n numeric outside
      obtain ⟨told, notices, known, _, counted⟩ := tells_of_mentions compiled defined
        (Graph.mentions_ofDefinitions opened computed visible fun draft =>
          Draft.mentions_identify.2 activity member n numeric outside)
      exact ⟨told, notices, known, counted⟩

/-- A base event with a number of its own that is out of its range, and an activity that is. -/
def outsideEvent : Fields := [
  ("name", .text "base_event"), ("uid", .int 1000),
  ("attributes", .record [
    ("activity_id", .record [("enum", .record [("100", .record [("caption", .text "Run")])])])])]

def outsideItem : Fields := Entries.put "_origin" (.text "/schema/events/base_event.json") outsideEvent

def outsideSchema : Tree :=
  let whole : Value := .record [("type", .text "integer_t")]
  .ofDocuments [
    (["schema", "version.json"], [("version", .text "1.0.0")]),
    (["schema", "categories.json"], [("attributes", .record [])]),
    (["schema", "dictionary.json"], [
      ("attributes", .record [("activity_id", whole), ("class_uid", whole), ("class_name", whole),
        ("type_uid", whole)]),
      ("types", .record [("attributes", .record [("integer_t", .record [("caption", .text "Integer")])])])]),
    (["schema", "events", "base_event.json"], outsideEvent)]

theorem outside_event_told : ∃ graph after, (withoutCorp.compile outsideSchema).outcome {} = (.ok graph, after) ∧
    .invalidUid "base_event" (.int 1000) ∈ after.notices ∧ 0 < after.diagnostics.errors ∧
    .activityOutOfRange "base_event" 100 ∈ after.notices ∧ 0 < after.diagnostics.warnings := by
  have evaluated : ((withoutCorp.compile outsideSchema).outcome {}).1.toOption.isSome = true := by decide +kernel
  have shape : (withoutCorp.compilation outsideSchema).definitions.toOption.map Definitions.classes =
      some (.record [("base_event", .record outsideItem)]) := by decide +kernel
  obtain ⟨d, defined, classes⟩ := Option.map_eq_some_iff.mp shape
  have flattens : ((Lineage.inherit .eventClass [("base_event", outsideItem)]).toOption.map fun flat =>
      (Entries.getOr "uid" flat (.int 0), ownActivities (Entries.attributes flat))) =
      some (Value.int 1000, ([("100", .record [("caption", .text "Run")])] : Fields)) := by decide +kernel
  obtain ⟨flat, inherited, given⟩ := Option.map_eq_some_iff.mp flattens
  obtain ⟨uid, activities⟩ := Prod.mk.inj given
  have computed : Lineage.Flat .eventClass [("base_event", .record outsideItem)] "base_event" flat :=
    ⟨outsideItem, [], .root rfl (.inr (toOption_eq_some.mp (by decide +kernel))), toOption_eq_some.mp inherited⟩
  cases ran : (withoutCorp.compile outsideSchema).outcome {} with
  | mk outcome after =>
      rw [ran] at evaluated
      cases outcome with
      | error fault => cases evaluated
      | ok graph =>
          obtain ⟨complained, warned⟩ := (identifiers_out_of_range withoutCorp outsideSchema {}).2 graph after d _ ran
            (toOption_eq_some.mp defined) (congrArg Value.asFields classes) "base_event" flat computed (.inl rfl)
          rw [uid] at complained
          rw [activities] at warned
          obtain ⟨told, notices, complaint, errors⟩ := complained fun ⟨n, whole, _, below⟩ => by
            cases whole
            exact absurd below (by decide)
          obtain ⟨told', notices', warning, warnings⟩ := warned _ (List.mem_singleton_self _) 100 (by decide +kernel)
            (by decide)
          exact ⟨graph, after, rfl, notices ▸ complaint, errors, notices' ▸ warning, warnings⟩

/-- A schema with an extension that gives a category the uid 100. -/
def longSchema : Tree :=
  .ofDocuments [
    (["schema", "version.json"], [("version", .text "1.0.0")]),
    (["schema", "categories.json"], [("attributes", .record [])]),
    (["schema", "dictionary.json"], [("attributes", .record [])]),
    (["schema", "events", "base_event.json"], [("name", .text "base_event")]),
    (["corp", "extension.json"], [("name", .text "corp"), ("uid", .int 7)]),
    (["corp", "categories.json"], [("attributes", .record [("local", .record [("uid", .int 100)])])])]

def endedOnCategory? {α : Type} : Except Fault α → Option Value
  | .error (.range (.category uid)) => some uid
  | _ => none

private theorem eq_of_endedOnCategory? {α : Type} {outcome : Except Fault α} {uid : Value}
    (ended : endedOnCategory? outcome = some uid) : outcome = .error (.range (.category uid)) := by
  unfold endedOnCategory? at ended
  split at ended
  · cases ended
    rfl
  · cases ended

theorem long_category_ends : ∃ after,
    (withCorp.compile longSchema).outcome {} = (.error (.range (.category (.int 100))), after) ∧
    Repository.reports (.range (.category (.int 100))) = false := by
  have evaluated : endedOnCategory? ((withCorp.compile longSchema).outcome {}).1 = some (.int 100) := by
    decide +kernel
  generalize (withCorp.compile longSchema).outcome {} = ran at *
  exact ⟨ran.2, Prod.ext (eq_of_endedOnCategory? evaluated) rfl, rfl⟩

end Settings

end EventSchema
