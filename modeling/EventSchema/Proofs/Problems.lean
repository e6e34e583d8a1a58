import EventSchema.Run

/-!
Notices and the problems that are counted for them.

A notice counts for the problem that it tells of: one of the level of an error for an error, and one of
the level of a warning for a warning. But a version file or a path of an extension that is passed over
is told of at the level of a warning and counts for none.
-/

set_option autoImplicit false

namespace EventSchema

namespace Diagnostics

def add (first later : Diagnostics) : Diagnostics where
  errors := first.errors + later.errors
  warnings := first.warnings + later.warnings
  unresolved := first.unresolved ++ later.unresolved

theorem add_none (counted : Diagnostics) : counted.add {} = counted := by
  unfold add
  rw [List.append_nil]
  rfl

theorem none_add (counted : Diagnostics) : ({} : Diagnostics).add counted = counted := by
  unfold add
  rw [Nat.zero_add, Nat.zero_add, List.nil_append]

theorem add_warning (counted : Diagnostics) :
    counted.add { warnings := 1 } = { counted with warnings := counted.warnings + 1 } := by
  unfold add
  rw [List.append_nil]
  rfl

theorem add_assoc (first second third : Diagnostics) :
    (first.add second).add third = first.add (second.add third) := by
  unfold add
  rw [Nat.add_assoc, Nat.add_assoc, List.append_assoc]

end Diagnostics

/-- The notice tells of something that is passed over: a version file that is no document, or a path
that leads to no extension. -/
def Notice.passesOver : Notice → Bool
  | .versionFileIgnored _ _ | .extensionPathIgnored _ => true
  | _ => false

def Notice.problem (notice : Notice) : Diagnostics :=
  match notice with
  | .unresolved reference => { errors := 1, unresolved := [reference] }
  | notice =>
    if notice.level = .error then { errors := 1 }
    else if notice.level = .warning ∧ notice.passesOver = false then { warnings := 1 }
    else {}

namespace Notice

private theorem errors_problem (notice : Notice) :
    notice.problem.errors = if notice.level = .error then 1 else 0 := by
  unfold problem
  split
  · rfl
  · split
    · rfl
    · split <;> rfl

private theorem warnings_problem (notice : Notice) : notice.problem.warnings =
    if notice.level = .warning ∧ notice.passesOver = false then 1 else 0 := by
  unfold problem
  split
  · rfl
  · split
    · rename_i wrong
      rw [if_neg fun warned => by rw [wrong] at warned; cases warned.1]
    · split <;> rfl

end Notice

def Diagnostics.ofNotices (notices : List Notice) : Diagnostics :=
  notices.foldr (fun notice later => notice.problem.add later) {}

namespace Diagnostics

private theorem ofNotices_cons (notice : Notice) (later : List Notice) :
    ofNotices (notice :: later) = notice.problem.add (ofNotices later) := rfl

theorem ofNotices_singleton (notice : Notice) : ofNotices [notice] = notice.problem := add_none _

theorem ofNotices_append (first later : List Notice) :
    ofNotices (first ++ later) = (ofNotices first).add (ofNotices later) := by
  induction first with
  | nil => exact (none_add _).symm
  | cons head rest ih => rw [List.cons_append, ofNotices_cons, ofNotices_cons, ih, add_assoc]

theorem errors_ofNotices (notices : List Notice) :
    (ofNotices notices).errors = notices.countP fun notice => decide (notice.level = .error) := by
  induction notices with
  | nil => rfl
  | cons head rest ih =>
      rw [ofNotices_cons, List.countP_cons, add, Notice.errors_problem, ih]
      simp only [decide_eq_true_eq]
      exact Nat.add_comm _ _

theorem warnings_ofNotices (notices : List Notice) : (ofNotices notices).warnings =
    notices.countP fun notice => decide (notice.level = .warning ∧ notice.passesOver = false) := by
  induction notices with
  | nil => rfl
  | cons head rest ih =>
      rw [ofNotices_cons, List.countP_cons, add, Notice.warnings_problem, ih]
      simp only [decide_eq_true_eq]
      exact Nat.add_comm _ _

theorem problem_le {notice : Notice} {notices : List Notice} (member : notice ∈ notices) :
    notice.problem.errors ≤ (ofNotices notices).errors ∧
      notice.problem.warnings ≤ (ofNotices notices).warnings := by
  obtain ⟨earlier, later, rfl⟩ := List.append_of_mem member
  rw [ofNotices_append, ofNotices_cons]
  simp only [add]
  omega

end Diagnostics

def Run.reporting (notices : List Notice) (run : Run) : Run where
  diagnostics := run.diagnostics.add (.ofNotices notices)
  notices := run.notices ++ notices
  cache := run.cache

namespace Run

theorem reporting_nil (run : Run) : run.reporting [] = run := by
  unfold reporting
  rw [List.append_nil, Diagnostics.ofNotices, List.foldr_nil, Diagnostics.add_none]

theorem reporting_append (first later : List Notice) (run : Run) :
    run.reporting (first ++ later) = (run.reporting first).reporting later := by
  unfold reporting
  rw [Diagnostics.ofNotices_append, Diagnostics.add_assoc, List.append_assoc]

theorem reporting_note {notice : Notice} (harmless : notice.problem = {}) (run : Run) :
    run.reporting [notice] = { run with notices := run.notices ++ [notice] } := by
  unfold reporting
  rw [Diagnostics.ofNotices_singleton, harmless, Diagnostics.add_none]

end Run

end EventSchema
