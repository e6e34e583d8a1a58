import EventSchema.Proofs.Fragment
import EventSchema.Repository
import Mathlib.Data.List.Induction

/-!
A repository and its files over time.

Files change, the repository is loaded anew, and questions are put to it, in any order. Whatever was done,
the repository is that of the last load which succeeded: it answers from the graph that was compiled then,
from the files as they were then, and it goes on with the paths of that load. A load that fails leaves no
trace, wherever it stops.
-/

set_option autoImplicit false

namespace EventSchema

/-- What a load is asked to compile: the paths that it is given. -/
structure Request where
  schema : Option Path := none
  extensionPaths : Option (List Path) := none

/-- What happens to a repository or to the files. -/
inductive Event (Answer : Type) where
  | change (tree : Tree)
  | load
  | reload (request : Request)
  | ask (question : Graph → Except Fault Answer)

inductive Reply (Answer : Type) where
  | changed
  | loaded (outcome : Except Fault Graph)
  | answered (outcome : Except Fault Answer)

structure World where
  tree : Tree
  repository : Repository

variable {Answer : Type}

def Event.request? : Event Answer → Option Request
  | .load => some {}
  | .reload request => some request
  | .change _ | .ask _ => none

def Event.files? : Event Answer → Option Tree
  | .change tree => some tree
  | .load | .reload _ | .ask _ => none

structure Loaded where
  tree : Tree
  schema : Path
  extensionPaths : Option (List Path)
  graph : Graph

def Repository.holding (r : Repository) (done : Loaded) : Repository :=
  { r with
    schema := done.schema
    extensionPaths := done.extensionPaths
    current := some done.graph }

namespace World

def step (w : World) : Event Answer → Reply Answer × World
  | .change tree => (.changed, { w with tree })
  | .load =>
    let done := w.repository.load w.tree
    (.loaded done.outcome, { w with repository := done.repository })
  | .reload request =>
    let done := w.repository.reload w.tree request.schema request.extensionPaths
    (.loaded done.outcome, { w with repository := done.repository })
  | .ask question => (.answered (w.repository.ask question), w)

def after (w : World) (events : List (Event Answer)) : World :=
  events.foldl (fun w event => (w.step event).2) w

/-- The event is a load that succeeds: the files as they are compile to the graph, with the paths that are
given and otherwise those of the repository. -/
structure Loads (w : World) (event : Event Answer) (done : Loaded) : Prop where
  paths : ∃ request ∈ event.request?, done.schema = request.schema.getD w.repository.schema ∧
    done.extensionPaths = request.extensionPaths.or w.repository.extensionPaths
  tree : done.tree = w.tree
  compiled : (({
      schema := done.schema
      ignorePlatform := w.repository.ignorePlatform
      extensionPaths := done.extensionPaths.getD []
      duplicates := w.repository.duplicates } : Settings).compile done.tree |>.outcome {}).1 = .ok done.graph

def HasLoaded (w : World) (events : List (Event Answer)) (done : Loaded) : Prop :=
  ∃ before event rest, events = before ++ event :: rest ∧ (w.after before).Loads event done

def LastLoaded (w : World) (events : List (Event Answer)) (done : Loaded) : Prop :=
  ∃ before event rest, events = before ++ event :: rest ∧ (w.after before).Loads event done ∧
    ∀ between next more other, rest = between ++ next :: more →
      ¬(w.after (before ++ event :: between)).Loads next other

end World

/-! ### One load -/

namespace Repository

variable {r : Repository} {tree : Tree} {schema : Option Path} {extensionPaths : Option (List Path)}

private theorem reload_ok {graph : Graph}
    (compiled : (((r.redirect schema extensionPaths).settings.compile tree).outcome {}).1 = .ok graph) :
    (r.reload tree schema extensionPaths).outcome = .ok graph ∧
      (r.reload tree schema extensionPaths).repository =
        r.holding ⟨tree, schema.getD r.schema, extensionPaths.or r.extensionPaths, graph⟩ := by
  unfold reload
  dsimp only
  split
  · rename_i evaluated
    cases (congrArg Prod.fst evaluated).symm.trans compiled
    exact ⟨rfl, rfl⟩
  · rename_i evaluated
    cases (congrArg Prod.fst evaluated).symm.trans compiled

/-- A load that stops leaves the repository as it was. -/
theorem reload_error {fault : Fault}
    (compiled : (((r.redirect schema extensionPaths).settings.compile tree).outcome {}).1 = .error fault) :
    (r.reload tree schema extensionPaths).outcome = .error fault ∧
      (r.reload tree schema extensionPaths).repository = r := by
  unfold reload
  dsimp only
  split
  · rename_i evaluated
    cases (congrArg Prod.fst evaluated).symm.trans compiled
  · rename_i evaluated
    cases (congrArg Prod.fst evaluated).symm.trans compiled
    exact ⟨rfl, rfl⟩

end Repository

namespace World

/-! ### One event -/

variable {w : World} {event : Event Answer}

private theorem step_load {request : Request} (asked : request ∈ event.request?) :
    w.step event = (.loaded (w.repository.reload w.tree request.schema request.extensionPaths).outcome,
      { w with
        repository := (w.repository.reload w.tree request.schema request.extensionPaths).repository }) := by
  cases event with
  | change tree => cases asked
  | load =>
      cases asked
      rfl
  | reload given =>
      cases asked
      rfl
  | ask question => cases asked

private theorem Loads.step_eq {done : Loaded} (loads : w.Loads event done) :
    w.step event = (.loaded (.ok done.graph), { w with repository := w.repository.holding done }) := by
  obtain ⟨⟨request, asked, schema, extensionPaths⟩, tree, compiled⟩ := loads
  obtain ⟨files, path, paths, graph⟩ := done
  dsimp only at schema extensionPaths tree compiled
  subst schema extensionPaths tree
  obtain ⟨outcome, repository⟩ := Repository.reload_ok compiled
  rw [step_load asked, outcome, repository]

/-- A load succeeds, or the event leaves the repository as it is and loads nothing. -/
theorem step_cases (w : World) (event : Event Answer) :
    (∃ done, w.Loads event done) ∨
      (w.step event).2.repository = w.repository ∧ ∀ graph, (w.step event).1 ≠ .loaded (.ok graph) := by
  cases asked : event.request? with
  | none =>
      cases event with
      | change tree => exact Or.inr ⟨rfl, fun _ same => by cases same⟩
      | load => cases asked
      | reload request => cases asked
      | ask question => exact Or.inr ⟨rfl, fun _ same => by cases same⟩
  | some request =>
      cases compiled : (((w.repository.redirect request.schema request.extensionPaths).settings.compile
          w.tree).outcome {}).1 with
      | ok graph =>
          exact Or.inl ⟨⟨w.tree, request.schema.getD w.repository.schema,
            request.extensionPaths.or w.repository.extensionPaths, graph⟩,
            ⟨request, asked, rfl, rfl⟩, rfl, compiled⟩
      | error fault =>
          obtain ⟨outcome, repository⟩ := Repository.reload_error compiled
          rw [step_load asked, outcome, repository]
          exact Or.inr ⟨rfl, fun _ same => by cases same⟩

/-- What a load answers tells whether it succeeded. -/
theorem loads_iff {graph : Graph} :
    (w.step event).1 = .loaded (.ok graph) ↔ ∃ done, w.Loads event done ∧ done.graph = graph := by
  constructor
  · intro answered
    rcases step_cases w event with ⟨done, loads⟩ | ⟨_, silent⟩
    · rw [loads.step_eq] at answered
      cases answered
      exact ⟨done, loads, rfl⟩
    · exact absurd answered (silent graph)
  · rintro ⟨done, loads, rfl⟩
    rw [loads.step_eq]

private theorem repository_step (silent : ∀ done, ¬w.Loads event done) :
    (w.step event).2.repository = w.repository := by
  rcases step_cases w event with ⟨done, loads⟩ | ⟨same, _⟩
  · exact absurd loads (silent done)
  · exact same

private theorem step_failed {fault : Fault} (failed : (w.step event).1 = .loaded (.error fault)) :
    (w.step event).2 = w := by
  cases asked : event.request? with
  | none =>
      cases event with
      | change tree => cases failed
      | load => cases asked
      | reload request => cases asked
      | ask question => cases failed
  | some request =>
      cases compiled : (((w.repository.redirect request.schema request.extensionPaths).settings.compile
          w.tree).outcome {}).1 with
      | ok graph =>
          rw [step_load asked, (Repository.reload_ok compiled).1] at failed
          cases failed
      | error other => rw [step_load asked, (Repository.reload_error compiled).2]

private theorem tree_step (w : World) (event : Event Answer) :
    (w.step event).2.tree = event.files?.getD w.tree := by
  cases event with
  | change tree => rfl
  | load => rfl
  | reload request => rfl
  | ask question => rfl

/-! ### All events -/

variable {events : List (Event Answer)}

private theorem after_append (w : World) (first later : List (Event Answer)) :
    w.after (first ++ later) = (w.after first).after later := List.foldl_append

private theorem after_concat (w : World) (events : List (Event Answer)) (event : Event Answer) :
    w.after (events ++ [event]) = ((w.after events).step event).2 := List.foldl_concat ..

private theorem tree_after (w : World) (events : List (Event Answer)) :
    (w.after events).tree = (events.filterMap Event.files?).getLast?.getD w.tree := by
  induction events using List.reverseRecOn with
  | nil => rfl
  | append_singleton before event ih =>
      rw [after_concat, tree_step, ih, List.filterMap_append, List.getLast?_append, List.filterMap_cons]
      cases event.files? with
      | none => rfl
      | some tree => rfl

/-- All loads that follow upon each other replace the same parts of the repository. -/
theorem holding_after (w : World) (events : List (Event Answer)) (done : Loaded) :
    (w.after events).repository.holding done = w.repository.holding done := by
  induction events using List.reverseRecOn with
  | nil => rfl
  | append_singleton before event ih =>
      rw [after_concat]
      rcases step_cases (w.after before) event with ⟨other, loads⟩ | ⟨same, _⟩
      · rw [loads.step_eq]
        exact ih
      · rw [same]
        exact ih

private theorem repository_after (silent : ∀ done, ¬w.HasLoaded events done) :
    (w.after events).repository = w.repository := by
  induction events using List.reverseRecOn with
  | nil => rfl
  | append_singleton before event ih =>
      rw [after_concat, repository_step, ih]
      · rintro done ⟨first, one, rest, rfl, loads⟩
        exact silent done ⟨first, one, rest ++ [event], by rw [List.append_assoc, List.cons_append], loads⟩
      · exact fun done loads => silent done ⟨before, event, [], rfl, loads⟩

theorem LastLoaded.repository {done : Loaded} (last : w.LastLoaded events done) :
    (w.after events).repository = w.repository.holding done := by
  obtain ⟨before, event, rest, rfl, loads, silent⟩ := last
  have later : ((w.after (before ++ [event])).after rest).repository =
      (w.after (before ++ [event])).repository := by
    refine repository_after ?_
    rintro other ⟨between, next, more, rfl, succeeds⟩
    rw [← after_append, List.append_assoc, List.singleton_append] at succeeds
    exact silent between next more other rfl succeeds
  rw [← List.singleton_append (l := rest), ← List.append_assoc, after_append, later, after_concat,
    loads.step_eq]
  exact holding_after w before done

private theorem exists_lastLoaded (w : World) (events : List (Event Answer)) :
    (∀ done, ¬w.HasLoaded events done) ∨ ∃ done, w.LastLoaded events done := by
  induction events using List.reverseRecOn with
  | nil =>
      refine Or.inl ?_
      rintro done ⟨before, event, rest, impossible, _⟩
      exact List.append_ne_nil_of_right_ne_nil before (List.cons_ne_nil event rest) impossible.symm
  | append_singleton before event ih =>
      rcases Classical.em (∃ done, (w.after before).Loads event done) with ⟨done, loads⟩ | none
      · refine Or.inr ⟨done, before, event, [], rfl, loads, ?_⟩
        rintro between next more _ impossible
        exact absurd impossible.symm (List.append_ne_nil_of_right_ne_nil between (List.cons_ne_nil next more))
      · refine ih.imp ?_ ?_
        · rintro silent done ⟨first, one, rest, split, loads⟩
          rcases List.eq_nil_or_concat rest with rfl | ⟨rest, other, rfl⟩
          · obtain ⟨rfl, same⟩ := List.append_inj' split rfl
            cases same
            exact none ⟨done, loads⟩
          · rw [List.concat_eq_append, ← List.cons_append, ← List.append_assoc] at split
            exact silent done ⟨first, one, rest, List.append_inj_left' split rfl, loads⟩
        · rintro ⟨done, first, one, rest, rfl, loads, silent⟩
          refine ⟨done, first, one, rest ++ [event], by rw [List.append_assoc, List.cons_append], loads, ?_⟩
          intro between next more other split succeeds
          rcases List.eq_nil_or_concat more with rfl | ⟨more, _, rfl⟩
          · obtain ⟨rfl, same⟩ := List.append_inj' split rfl
            cases same
            exact none ⟨other, succeeds⟩
          · rw [List.concat_eq_append, ← List.cons_append, ← List.append_assoc] at split
            exact silent between next more other (List.append_inj_left' split rfl) succeeds

end World

/-- Whatever happens to a repository and its files, it is loaded exactly if a load succeeded; it answers
from the graph of the last such load, which compiled the files and the paths of its moment, and refuses to
answer before there is one; its paths are those of that load, and those that it was made with before; and a
load that fails changes nothing. -/
theorem Repository.runs (tree : Tree) (schema : Path) (extensionPaths : Option (List Path))
    (ignorePlatform : Bool) (duplicates : DuplicatePolicy) (events : List (Event Answer)) :
    let start : World := ⟨tree, { schema, extensionPaths, ignorePlatform, duplicates }⟩
    let now := start.after events
    now.tree = (events.filterMap Event.files?).getLast?.getD tree ∧
      (now.repository.isLoaded = true ↔ ∃ done, start.HasLoaded events done) ∧
      (now.repository.isLoaded = true → ∃ done, start.LastLoaded events done) ∧
      (now.repository.isLoaded = false → now.repository = start.repository ∧
        ∀ question : Graph → Except Fault Answer,
          now.step (.ask question) = (.answered (.error (.definition .nothingLoaded)), now)) ∧
      (∀ done, start.LastLoaded events done →
        now.repository = {
          schema := done.schema
          extensionPaths := done.extensionPaths
          ignorePlatform
          duplicates
          current := some done.graph } ∧
        ∀ question : Graph → Except Fault Answer,
          now.step (.ask question) = (.answered (question done.graph), now)) ∧
      (∀ (event : Event Answer) graph, (now.step event).1 = .loaded (.ok graph) ↔
        ∃ done, now.Loads event done ∧ done.graph = graph) ∧
      ∀ (event : Event Answer) fault, (now.step event).1 = .loaded (.error fault) → (now.step event).2 = now := by
  intro start now
  have held (done : Loaded) (last : start.LastLoaded events done) :
      now.repository = start.repository.holding done := last.repository
  have loaded (done : Loaded) (has : start.HasLoaded events done) : ∃ last, start.LastLoaded events last :=
    (start.exists_lastLoaded events).resolve_left fun silent => silent done has
  have unloaded (silent : ∀ done, ¬start.HasLoaded events done) : now.repository = start.repository :=
    World.repository_after silent
  have status : now.repository.isLoaded = true ↔ ∃ done, start.HasLoaded events done := by
    constructor
    · intro is
      by_contra none
      rw [unloaded fun done has => none ⟨done, has⟩] at is
      cases is
    · rintro ⟨done, has⟩
      obtain ⟨last, succeeded⟩ := loaded done has
      rw [held last succeeded]
      rfl
  refine ⟨start.tree_after events, status, fun is => ?_, fun isNot => ?_, fun done last => ?_,
    fun event graph => World.loads_iff, fun event fault failed => ?_⟩
  · obtain ⟨done, has⟩ := status.mp is
    exact loaded done has
  · have same := unloaded fun done has => by
      rw [status.mpr ⟨done, has⟩] at isNot
      cases isNot
    refine ⟨same, fun question => ?_⟩
    unfold World.step Repository.ask Repository.graph
    rw [same]
    rfl
  · have same := held done last
    refine ⟨same, fun question => ?_⟩
    unfold World.step Repository.ask Repository.graph
    rw [same]
    rfl
  · exact World.step_failed failed

/-- A schema of nothing but the base event. -/
def plainTree : Tree :=
  .ofDocuments [
    (["schema", "categories.json"], [("attributes", .record [])]),
    (["schema", "dictionary.json"], [("attributes", .record [])]),
    (["schema", "events", "base_event.json"], [("name", .text "base_event")])]

theorem Repository.runs_filesDeleted :
    let start : World := ⟨plainTree, { schema := ("/schema" : Text) }⟩
    let events : List (Event Value) := [.load, .change (.ofDocuments [])]
    ∃ done, start.LastLoaded events done ∧
      ((start.after events).step (.ask fun graph => .ok graph.version)).1 =
        (.answered (.ok (.text "0.0.0")) : Reply Value) := by
  intro start events
  have evaluated : ((({ schema := ("/schema" : Text) } : Settings).compile plainTree).outcome {}).1.toOption.map
      Graph.version = some (.text "0.0.0") := by
    decide +kernel
  obtain ⟨graph, compiled, version⟩ := Option.map_eq_some_iff.mp evaluated
  have last : start.LastLoaded events ⟨plainTree, ("/schema" : Text), none, graph⟩ := by
    refine ⟨[], .load, [.change (.ofDocuments [])], rfl,
      ⟨⟨{}, rfl, rfl, rfl⟩, rfl, toOption_eq_some.mp compiled⟩, ?_⟩
    rintro between next more other same ⟨⟨_, asked, _⟩, _⟩
    cases between with
    | nil =>
        cases same
        cases asked
    | cons first rest =>
        have impossible := (List.cons.inj same).2
        exact List.append_ne_nil_of_right_ne_nil rest (List.cons_ne_nil next more) impossible.symm
  obtain ⟨_, _, _, _, held, _⟩ := runs plainTree ("/schema" : Text) none false .error events
  obtain ⟨_, answers⟩ := held _ last
  refine ⟨_, last, ?_⟩
  rw [answers, version]

end EventSchema
