import EventSchema.Proofs.Compilation
import EventSchema.Proofs.Graph.Steady

/-!
The course of a compilation.

Merging contributions is steady and so is building the graph, so a whole build is fixed by the files. A
compilation that gives a graph has told of its start, opened the cache, built the graph and told of the
problems that it counted on the way.
-/

set_option autoImplicit false

namespace EventSchema

variable {α β : Type} {tree : Tree}

/-! ### Compilations -/

namespace Compilation

/-- The graph is fixed by the files of the schema and its extensions. -/
theorem fixed_build (c : Compilation) : c.build.Fixed c.tree := by
  unfold build
  refine c.fixed_version.bind fun version _ => ?_
  refine (c.fixed_requiredDocument _).bind fun categories _ => ?_
  refine (c.fixed_requiredDocument _).bind fun dictionary _ => ?_
  refine (c.fixed_locateExtensions version).bind fun extensions _ => ?_
  refine (c.fixed_readAll categories dictionary extensions).bind fun read _ => ?_
  refine (Act.fixed_mapM fun contribution _ => (steady_prepare contribution).fixed).bind fun prepared _ => ?_
  refine (Act.fixed_foldlM read.1 fun sources contribution _ => (steady_add sources contribution).fixed).bind
    fun sources _ => ?_
  exact (steady_definitions sources version extensions).fixed.bind fun d _ =>
    (Graph.steady_ofDefinitions d).fixed

end Compilation

/-! ### Courses -/

/-- Opening the cache drops what it held, and tells of it if it was open already. -/
theorem tells_of_openCache {run after : Run} {done : Unit} (ran : openCache.outcome run = (.ok done, after)) :
    run.Tells after ∧ after.cache = run.cache.init := by
  unfold openCache at ran
  obtain ⟨_, _, asked, ran⟩ := Act.outcome_bind_ok ran
  cases asked
  split at ran
  · obtain ⟨_, _, noted, ran⟩ := Act.outcome_bind_ok ran
    cases noted
    cases ran
    exact ⟨⟨[.fragmentsCleared run.cache.size], rfl, (Diagnostics.add_none _).symm⟩, rfl⟩
  · cases ran
    exact ⟨.of_same rfl rfl, rfl⟩

/-- An action with something to be done in the end that gives a value has given it before the end. -/
theorem Act.outcome_finally_ok {act : Act α} {last : Act Unit} {run after : Run} {value : α}
    (ran : (act.finally last).outcome run = (.ok value, after)) :
    ∃ middle, act.outcome run = (.ok value, middle) ∧ last.outcome middle = (.ok (), after) := by
  unfold Act.finally at ran
  obtain ⟨outcome, middle, attempted, rest⟩ := outcome_bind_ok ran
  obtain ⟨done, ended, closing, given⟩ := outcome_bind_ok rest
  rw [outcome_attempt] at attempted
  cases own : act.outcome run with
  | mk result left =>
      rw [own] at attempted
      simp only [Prod.mk.injEq, Except.ok.injEq] at attempted
      obtain ⟨rfl, rfl⟩ := attempted
      cases result with
      | error fault =>
          rw [outcome_throw] at given
          cases given
      | ok result =>
          rw [outcome_pure] at given
          cases given
          exact ⟨left, rfl, closing⟩

namespace Compilation

structure Course (c : Compilation) (graph : Graph) (run after : Run) where
  opened : Run
  built : Run
  ended : List Notice
  opening : run.Tells opened
  faithful : opened.Faithful c.tree
  building : c.build.outcome opened = (.ok graph, built)
  counts : after.diagnostics = built.diagnostics
  notices : after.notices = built.notices ++
    .summary built.diagnostics.errors built.diagnostics.warnings :: ended
  harmless : ∀ notice ∈ ended, notice.level = .info

theorem Course.tells {c : Compilation} {graph : Graph} {run after : Run} (course : Course c graph run after) :
    run.Tells course.built :=
  course.opening.trans (c.fixed_build.tells course.faithful course.building)

theorem exists_course {c : Compilation} {graph : Graph} {run after : Run}
    (ran : c.run.outcome run = (.ok graph, after)) : Nonempty (Course c graph run after) := by
  unfold Compilation.run at ran
  extract_lets opened started at ran
  have building (done : Unit) (before : Run) (told : run.Tells before)
      (ran : (opened done).outcome before = (.ok graph, after)) : Nonempty (Course c graph run after) := by
    obtain ⟨_, opened, opening, ran⟩ := Act.outcome_bind_ok ran
    obtain ⟨opens, emptied⟩ := tells_of_openCache opening
    have faithful : opened.Faithful c.tree := fun path fragment found => by rw [emptied] at found; cases found
    obtain ⟨given, cleared, building, ran⟩ := Act.outcome_bind_ok ran
    obtain ⟨built, made, clearing⟩ := Act.outcome_finally_ok building
    cases clearing
    obtain ⟨_, _, summarized, ran⟩ := Act.outcome_bind_ok ran
    cases summarized
    obtain ⟨_, _, noted, ran⟩ := Act.outcome_bind_ok ran
    cases noted
    dsimp only at ran
    split at ran
    · obtain ⟨_, _, noted, ran⟩ := Act.outcome_bind_ok ran
      cases noted
      cases ran
      exact ⟨{
        opened, built, faithful
        building := made
        ended := [_, _]
        opening := told.trans opens
        counts := rfl
        notices := by simp only [List.append_assoc]; rfl
        harmless := by simp [Notice.level] }⟩
    · cases ran
      exact ⟨{
        opened, built, faithful
        building := made
        ended := [_]
        opening := told.trans opens
        counts := rfl
        notices := by simp only [List.append_assoc]; rfl
        harmless := by simp [Notice.level] }⟩
  have starting (done : Unit) (before : Run) (told : run.Tells before)
      (ran : (started done).outcome before = (.ok graph, after)) : Nonempty (Course c graph run after) := by
    obtain ⟨_, _, noted, ran⟩ := Act.outcome_bind_ok ran
    have tells := told.trans (.of_steady (Act.steady_note rfl) noted)
    split at ran
    · obtain ⟨_, _, impossible, _⟩ := Act.outcome_bind_ok ran
      cases impossible
    · exact building () _ tells ran
  split at ran
  · obtain ⟨_, _, impossible, _⟩ := Act.outcome_bind_ok ran
    cases impossible
  · exact starting () run (.of_same rfl rfl) ran

end Compilation

private theorem Settings.tells_of_announce {s : Settings} {run after : Run} {done : Unit}
    (ran : s.announce.outcome run = (.ok done, after)) : run.Tells after := by
  refine .of_steady ?_ ran
  unfold announce
  refine (Act.steady_note rfl).bind fun _ => (Act.steady_note rfl).bind fun _ => ?_
  extract_lets last
  have ended (done : Unit) : (last done).Steady := by
    unfold last
    split
    · exact Act.steady_note rfl
    · exact Act.steady_pure ()
  split
  · exact (Act.steady_note rfl).bind ended
  · exact ended ()

theorem Settings.exists_course {s : Settings} {graph : Graph} {run after : Run}
    (compiled : (s.compile tree).outcome run = (.ok graph, after)) :
    ∃ announced, run.Tells announced ∧ Nonempty (Compilation.Course (s.compilation tree) graph announced after) := by
  unfold Settings.compile at compiled
  obtain ⟨_, announced, announcing, compiled⟩ := Act.outcome_bind_ok compiled
  exact ⟨announced, tells_of_announce announcing, Compilation.exists_course compiled⟩

end EventSchema
