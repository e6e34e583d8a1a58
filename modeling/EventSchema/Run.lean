import EventSchema.Fragment.Cache
import EventSchema.Notice

/-!
The state of a run and the actions on it.

An action reports notices, counts problems that are tolerated, reads fragments, and may stop with a
fault. What it reported and read before it stopped stays: the state outlives the fault.
-/

set_option autoImplicit false

namespace EventSchema

/-- The problems that a run tolerated. -/
structure Diagnostics where
  errors : Nat := 0
  warnings : Nat := 0
  unresolved : List Unresolved := []

/-- What a run has reported and read so far. -/
structure Run where
  diagnostics : Diagnostics := {}
  notices : List Notice := []
  cache : Cache Fields := {}

abbrev Act := ExceptT Fault (StateM Run)

def note (notice : Notice) : Act Unit :=
  modify fun run => { run with notices := run.notices ++ [notice] }

def warn (notice : Notice) : Act Unit := do
  modify fun run =>
    { run with diagnostics := { run.diagnostics with warnings := run.diagnostics.warnings + 1 } }
  note notice

def complain (notice : Notice) : Act Unit := do
  modify fun run =>
    { run with diagnostics := { run.diagnostics with errors := run.diagnostics.errors + 1 } }
  note notice

/-- Report a reference that leads nowhere and count it as an error. -/
def leaveUnresolved (reference : Unresolved) : Act Unit := do
  modify fun run =>
    { run with
      diagnostics :=
        { run.diagnostics with
          errors := run.diagnostics.errors + 1
          unresolved := run.diagnostics.unresolved ++ [reference] } }
  note (.unresolved reference)

/-- Report how many problems the run tolerated. -/
def summarize : Act Unit := do
  let run ← get
  note (.summary run.diagnostics.errors run.diagnostics.warnings)

/-- Open the cache of the run; what it still held is reported and dropped. -/
def openCache : Act Unit := do
  let run ← get
  if run.cache.opened then note (.fragmentsCleared run.cache.size)
  modify fun run => { run with cache := run.cache.init }

def clearCache : Act Unit := modify fun run => { run with cache := run.cache.clear }

def Act.outcome {α : Type} (act : Act α) (run : Run) : Except Fault α × Run :=
  StateT.run (ExceptT.run act) run

theorem Act.outcome_pure {α : Type} (value : α) (run : Run) :
    (pure value : Act α).outcome run = (.ok value, run) := rfl

theorem Act.outcome_throw {α : Type} (fault : Fault) (run : Run) :
    (throw fault : Act α).outcome run = (.error fault, run) := rfl

/-- The second action starts from the state after the first one, unless that one stopped. -/
theorem Act.outcome_bind {α β : Type} (act : Act α) (next : α → Act β) (run : Run) :
    (act >>= next).outcome run = match act.outcome run with
      | (.ok value, after) => (next value).outcome after
      | (.error fault, after) => (.error fault, after) := by
  unfold Act.outcome ExceptT.run StateT.run
  simp only [bind, ExceptT.bind, ExceptT.mk, StateT.bind]
  cases act run with
  | mk result after => cases result <;> rfl

/-- Run an action and give its outcome, a fault included, as a value. -/
def Act.attempt {α : Type} (act : Act α) : Act (Except Fault α) := fun run =>
  match act.outcome run with
  | (outcome, after) => (.ok outcome, after)

theorem Act.outcome_attempt {α : Type} (act : Act α) (run : Run) :
    act.attempt.outcome run = (.ok (act.outcome run).1, (act.outcome run).2) := rfl

/-- Run an action and then another, whether the first stopped or not. -/
def Act.finally {α : Type} (act : Act α) (last : Act Unit) : Act α := do
  let outcome ← act.attempt
  last
  match outcome with
  | .ok value => pure value
  | .error fault => throw fault

end EventSchema
