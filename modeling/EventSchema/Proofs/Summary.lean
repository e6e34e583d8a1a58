import EventSchema.Proofs.Conservative
import EventSchema.Proofs.Course

/-!
The summary of a compilation.

Every problem that a compilation tolerates is counted where it is reported. So the summary gives the
number of errors and of warnings that were reported before it, but for version files and paths of
extensions that were passed over: those are reported at the level of a warning and never counted.
-/

set_option autoImplicit false

namespace EventSchema

variable {tree : Tree}

def Level.count (level : Level) (notices : List Notice) : Nat :=
  notices.countP fun notice => decide (notice.level = level)

/-- How many of the notices tell of something that was passed over. -/
def Notice.countPassed (notices : List Notice) : Nat := notices.countP Notice.passesOver

namespace Notice

private theorem level_of_passesOver {notice : Notice} (passed : notice.passesOver = true) :
    notice.level = .warning := by
  cases notice with
  | versionFileIgnored path cause => rfl
  | extensionPathIgnored path => rfl
  | _ => cases passed

private theorem count_warning (notices : List Notice) :
    Level.warning.count notices = (Diagnostics.ofNotices notices).warnings + countPassed notices := by
  rw [Diagnostics.warnings_ofNotices, Level.count, countPassed]
  induction notices with
  | nil => rfl
  | cons head rest ih =>
      rw [List.countP_cons, List.countP_cons, List.countP_cons, ih]
      cases passed : head.passesOver with
      | true => simp [level_of_passesOver passed]; omega
      | false => simp; omega

/-- No problem is counted just if nothing is told at the level of a warning or above, but for what is
passed over. -/
theorem uncounted_iff (notices : List Notice) :
    (Diagnostics.ofNotices notices).errors = 0 ∧ (Diagnostics.ofNotices notices).warnings = 0 ↔
      ∀ notice ∈ notices, Level.warning.rank ≤ notice.level.rank → notice.passesOver = true := by
  rw [Diagnostics.errors_ofNotices, Diagnostics.warnings_ofNotices, List.countP_eq_zero, List.countP_eq_zero,
    ← forall₂_and]
  refine forall₂_congr fun notice _ => ?_
  cases passed : notice.passesOver with
  | true => simp [level_of_passesOver passed]
  | false => cases notice.level <;> simp [Level.rank]

private theorem message_summary_eq (elapsed : Text) (errors warnings : Nat) :
    (summary errors warnings).message elapsed = ("Compile completed successfully" : Text) ↔
      errors = 0 ∧ warnings = 0 := by
  let opening : Text := "Compile completed with "
  have other (text : Text) (begins : opening.codes <+: text.codes) :
      text ≠ ("Compile completed successfully" : Text) := by
    rintro rfl
    exact absurd begins (by decide)
  have longer {text : Text} (begins : opening.codes <+: text.codes) (more : Text) :
      opening.codes <+: (text ++ more).codes := begins.trans (List.prefix_append ..)
  have begins : opening.codes <+: opening.codes := List.prefix_rfl
  simp only [message]
  split
  · rename_i both
    refine iff_of_false (other _ ?_) fun none => both.1 none.1
    exact longer (longer (longer (longer begins _) _) _) _
  · split
    · rename_i wrong
      exact iff_of_false (other _ (longer (longer begins _) _)) fun none => wrong none.1
    · rename_i right
      split
      · rename_i warned
        exact iff_of_false (other _ (longer (longer begins _) _)) fun none => warned none.2
      · rename_i quiet
        exact iff_of_true rfl ⟨not_not.mp right, not_not.mp quiet⟩

end Notice

namespace Settings

/-- A compilation that starts without problems tells in its summary how many errors and warnings were told
before it, but for what was passed over. It was successful by its summary just if nothing else was told at
the level of a warning or above. -/
theorem summary_counts {s : Settings} {run after : Run} {graph : Graph} (fresh : run.diagnostics = {})
    (compiled : (s.compile tree).outcome run = (.ok graph, after)) (elapsed : Text) :
    ∃ told ended, after.notices = run.notices ++ (told ++
        .summary after.diagnostics.errors after.diagnostics.warnings :: ended) ∧
      (∀ notice ∈ ended, notice.level = .info) ∧
      Level.error.count told = after.diagnostics.errors ∧
      Level.warning.count told = after.diagnostics.warnings + Notice.countPassed told ∧
      ((Notice.summary after.diagnostics.errors after.diagnostics.warnings).message elapsed =
          ("Compile completed successfully" : Text) ↔
        ∀ notice ∈ told, Level.warning.rank ≤ notice.level.rank → notice.passesOver = true) := by
  obtain ⟨announced, announcing, ⟨course⟩⟩ := exists_course compiled
  obtain ⟨told, reported, counted⟩ := announcing.trans course.tells
  have notices := course.notices
  rw [fresh, Diagnostics.none_add] at counted
  rw [reported, List.append_assoc] at notices
  have counts : after.diagnostics = .ofNotices told := course.counts.trans counted
  rw [← course.counts] at notices
  refine ⟨told, course.ended, notices, course.harmless, ?_, ?_, ?_⟩
  · rw [counts, Diagnostics.errors_ofNotices, Level.count]
  · rw [counts, Notice.count_warning]
  · rw [Notice.message_summary_eq, counts, Notice.uncounted_iff]

/-- A schema with a base event that nothing is to be said of. -/
def quietSchema : Tree :=
  let optional : Value := .record [("requirement", .text "optional")]
  let whole : Value := .record [("type", .text "integer_t")]
  .ofDocuments [
    (["schema", "version.json"], [("version", .text "1.0.0")]),
    (["schema", "categories.json"], [("attributes", .record [])]),
    (["schema", "dictionary.json"], [
      ("attributes", .record [("activity_id", whole), ("class_uid", whole), ("class_name", whole),
        ("type_uid", whole)]),
      ("types", .record [("attributes", .record [("integer_t", .record [("caption", .text "Integer")])])])]),
    (["schema", "events", "base_event.json"], [
      ("name", .text "base_event"),
      ("attributes", .record [
        ("activity_id", .record [
          ("requirement", .text "optional"),
          ("enum", .record [("1", .record [("caption", .text "Run")])])]),
        ("class_uid", optional), ("class_name", optional), ("type_uid", optional)])])]

theorem summary_counts_quiet : ∃ graph after,
    (withoutCorp.compile quietSchema).outcome {} = (.ok graph, after) ∧ ∃ told ended,
      after.notices = told ++ .summary after.diagnostics.errors after.diagnostics.warnings :: ended ∧
      (∀ notice ∈ ended, notice.level = .info) ∧
      Level.error.count told = after.diagnostics.errors ∧
      Level.warning.count told = after.diagnostics.warnings + Notice.countPassed told ∧
      ((Notice.summary after.diagnostics.errors after.diagnostics.warnings).message "0.250" =
          ("Compile completed successfully" : Text) ↔
        ∀ notice ∈ told, Level.warning.rank ≤ notice.level.rank → notice.passesOver = true) := by
  have evaluated : ((withoutCorp.compile quietSchema).outcome {}).1.toOption.isSome = true := by decide +kernel
  cases ran : (withoutCorp.compile quietSchema).outcome {} with
  | mk outcome after =>
      rw [ran] at evaluated
      cases outcome with
      | error fault => cases evaluated
      | ok graph => exact ⟨graph, after, rfl, summary_counts rfl ran "0.250"⟩

def startsWithSummary (errors warnings : Nat) : List Notice → Bool
  | .summary e w :: _ => e == errors && w == warnings
  | _ => false

private theorem exists_of_startsWithSummary {errors warnings : Nat} {notices : List Notice}
    (starts : startsWithSummary errors warnings notices = true) :
    ∃ ended, notices = .summary errors warnings :: ended := by
  unfold startsWithSummary at starts
  split at starts
  · obtain ⟨rfl, rfl⟩ : _ = errors ∧ _ = warnings := by simpa using starts
    exact ⟨_, rfl⟩
  · cases starts

theorem passed_path_uncounted : ∃ graph after told ended,
    (withCorp.compile quietSchema).outcome {} = (.ok graph, after) ∧
    after.notices = told ++ .summary 0 0 :: ended ∧ Level.warning.count told = 1 ∧
    after.diagnostics.warnings = 0 := by
  have evaluated (ended : Except Fault Graph × Run) (ran : (withCorp.compile quietSchema).outcome {} = ended) :
      (ended.1.toOption.isSome, ended.2.diagnostics.warnings, Level.warning.count (ended.2.notices.take 9),
        startsWithSummary 0 0 (ended.2.notices.drop 9)) = (true, 0, 1, true) := by
    rw [← ran]
    decide +kernel
  generalize same : (withCorp.compile quietSchema).outcome {} = ran
  have evaluated := evaluated ran same
  simp only [Prod.mk.injEq] at evaluated
  obtain ⟨compiled, counted, told, summarized⟩ := evaluated
  obtain ⟨graph, compiled⟩ := Option.isSome_iff_exists.mp compiled
  obtain ⟨ended, rest⟩ := exists_of_startsWithSummary summarized
  refine ⟨graph, ran.2, ran.2.notices.take 9, ended, ?_, ?_, told, counted⟩
  · exact Prod.ext (toOption_eq_some.mp compiled) rfl
  · rw [← rest, List.take_append_drop]

end Settings

end EventSchema
