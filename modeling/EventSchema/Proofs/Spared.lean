import EventSchema.Proofs.Cache

/-!
Runs that are spared some references.

Two actions go alike, each over a tree of its own, but the first one is told of some names that the other is
not. They end alike, with values that are related or with the same exception, and count the same warnings. What
the first one counts beyond the other is one error for each such name that it meets, and the unresolved
reference that says so.
-/

set_option autoImplicit false

namespace EventSchema

variable {α β γ δ : Type} {gone : Text → Prop}

/-- Unresolved references, and what is left of them if some to names that are gone are left out; the number
says how many. -/
inductive LeavesOut (gone : Text → Prop) : List Unresolved → List Unresolved → Nat → Prop
  | nil : LeavesOut gone [] [] 0
  | keep {more fewer : List Unresolved} {met : Nat} (reference : Unresolved)
      (rest : LeavesOut gone more fewer met) : LeavesOut gone (reference :: more) (reference :: fewer) met
  | drop {more fewer : List Unresolved} {met : Nat} {name : Text} (context : Text) (cause : Fault)
      (left : gone name) (rest : LeavesOut gone more fewer met) :
      LeavesOut gone (.notIncluded context name cause :: more) fewer (met + 1)

namespace LeavesOut

theorem refl (references : List Unresolved) : LeavesOut gone references references 0 := by
  induction references with
  | nil => exact nil
  | cons head rest ih => exact ih.keep head

theorem append {more fewer others fewerOthers : List Unresolved} {met also : Nat}
    (first : LeavesOut gone more fewer met) (later : LeavesOut gone others fewerOthers also) :
    LeavesOut gone (more ++ others) (fewer ++ fewerOthers) (met + also) := by
  induction first with
  | nil =>
      rw [Nat.zero_add]
      exact later
  | keep reference rest ih => exact ih.keep reference
  | drop context cause left rest ih =>
      rw [Nat.add_right_comm]
      exact ih.drop context cause left

end LeavesOut

/-- The problems counted by the first action and those counted by the one that was spared some references. -/
structure Diagnostics.Spares (gone : Text → Prop) (more fewer : Diagnostics) : Prop where
  warnings : more.warnings = fewer.warnings
  met : ∃ met, more.errors = fewer.errors + met ∧ LeavesOut gone more.unresolved fewer.unresolved met

namespace Diagnostics.Spares

theorem refl (counted : Diagnostics) : counted.Spares gone counted := ⟨rfl, 0, rfl, .refl _⟩

theorem add {more fewer others fewerOthers : Diagnostics} (first : more.Spares gone fewer)
    (later : others.Spares gone fewerOthers) : (more.add others).Spares gone (fewer.add fewerOthers) := by
  obtain ⟨met, errors, leaves⟩ := first.met
  obtain ⟨also, errors', leaves'⟩ := later.met
  constructor
  · simp only [Diagnostics.add]
    rw [first.warnings, later.warnings]
  · refine ⟨met + also, ?_, leaves.append leaves'⟩
    simp only [Diagnostics.add]
    omega

end Diagnostics.Spares

inductive Fault.Alike : Fault → Fault → Prop
  | refl (fault : Fault) : Fault.Alike fault fault
  | illegal (context : Text) {given other : Value} (sameType : given.typeName = other.typeName) :
      Fault.Alike (.definition (.includeValue context given)) (.definition (.includeValue context other))

inductive Concur (relation : α → β → Prop) : Except Fault α → Except Fault β → Prop
  | ok {value : α} {other : β} (related : relation value other) : Concur relation (.ok value) (.ok other)
  | error {fault other : Fault} (alike : fault.Alike other) : Concur relation (.error fault) (.error other)

namespace Concur

variable {relation : α → β → Prop} {last : γ → δ → Prop}

theorem refl {relation : α → α → Prop} {computation : Except Fault α}
    (same : ∀ value, computation = .ok value → relation value value) : Concur relation computation computation := by
  cases computation with
  | ok value => exact ok (same value rfl)
  | error fault => exact error (.refl fault)

theorem bind {computation : Except Fault α} {other : Except Fault β} {next : α → Except Fault γ}
    {later : β → Except Fault δ} (concur : Concur relation computation other)
    (each : ∀ value other, relation value other → Concur last (next value) (later other)) :
    Concur last (computation >>= next) (other >>= later) := by
  cases concur with
  | ok related => exact each _ _ related
  | error alike => exact error alike

end Concur

/-- The first action meets some names that the other is spared, and comes to the same otherwise. -/
structure Act.Spares (tree spared : Tree) (gone : Text → Prop) (relation : α → β → Prop) (act : Act α)
    (other : Act β) : Prop where
  fixed : act.Fixed tree
  otherFixed : other.Fixed spared
  ends : Concur relation act.content other.content
  reports : act.reports.Spares gone other.reports

namespace Act.Spares

variable {tree spared : Tree} {relation : α → β → Prop} {last : γ → δ → Prop}

theorem pure {value : α} {other : β} (related : relation value other) :
    Act.Spares tree spared gone relation (Pure.pure value) (Pure.pure other) where
  fixed := fixed_pure value
  otherFixed := fixed_pure other
  ends := .ok related
  reports := .refl _

theorem throw (relation : α → β → Prop) {fault other : Fault} (alike : fault.Alike other) :
    Act.Spares tree spared gone relation (MonadExcept.throw fault) (MonadExcept.throw other) where
  fixed := fixed_throw fault
  otherFixed := fixed_throw other
  ends := .error alike
  reports := .refl _

theorem lift {computation : Except Fault α} {other : Except Fault β}
    (concur : Concur relation computation other) :
    Act.Spares tree spared gone relation (liftM computation) (liftM other) where
  fixed := fixed_lift computation
  otherFixed := fixed_lift other
  ends := by
    rw [content_lift, content_lift]
    exact concur
  reports := .refl _

theorem of_steady {act : Act α} (steady : act.Steady) : act.Spares tree spared gone Eq act where
  fixed := steady.fixed
  otherFixed := steady.fixed
  ends := .refl fun _ _ => rfl
  reports := .refl _

theorem bind {act : Act α} {other : Act β} {next : α → Act γ} {later : β → Act δ}
    (spares : act.Spares tree spared gone relation other)
    (each : ∀ value result, relation value result →
      (next value).Spares tree spared gone last (later result)) :
    (act >>= next).Spares tree spared gone last (other >>= later) := by
  obtain ⟨fixed, otherFixed, ends, reports⟩ := spares
  have ready : ∀ value, act.content = .ok value → ∃ result, other.content = .ok result ∧ relation value result := by
    intro value ran
    rw [ran] at ends
    generalize other.content = ended at ends
    cases ends with
    | ok related => exact ⟨_, rfl, related⟩
  have ready' : ∀ result, other.content = .ok result → ∃ value, relation value result := by
    intro result ran
    rw [ran] at ends
    generalize act.content = ended at ends
    cases ends with
    | ok related => exact ⟨_, related⟩
  have nextFixed : ∀ value, act.content = .ok value → (next value).Fixed tree := by
    intro value ran
    obtain ⟨result, _, related⟩ := ready value ran
    exact (each value result related).fixed
  have laterFixed : ∀ result, other.content = .ok result → (later result).Fixed spared := by
    intro result ran
    obtain ⟨value, related⟩ := ready' result ran
    exact (each value result related).otherFixed
  constructor
  · exact fixed.bind nextFixed
  · exact otherFixed.bind laterFixed
  · rw [content_bind fixed nextFixed, content_bind otherFixed laterFixed]
    exact ends.bind fun value result related => (each value result related).ends
  · rw [reports_bind fixed nextFixed, reports_bind otherFixed laterFixed]
    generalize act.content = first at ends
    generalize other.content = second at ends
    cases ends with
    | ok related => exact reports.add (each _ _ related).reports
    | error alike => exact reports

/-- What holds of every value of the first action can be kept with it. -/
theorem holding {act : Act α} {other : Act β} (spares : act.Spares tree spared gone relation other)
    {holds : α → Prop} (each : ∀ value, act.content = .ok value → holds value) :
    act.Spares tree spared gone (fun value result => relation value result ∧ holds value) other := by
  refine { spares with ends := ?_ }
  have ends := spares.ends
  generalize act.content = first, other.content = second at ends each
  cases ends with
  | ok related => exact .ok ⟨related, each _ rfl⟩
  | error alike => exact .error alike

theorem attempt {act : Act α} {other : Act β} (spares : act.Spares tree spared gone relation other) :
    act.attempt.Spares tree spared gone (Concur relation) other.attempt where
  fixed := spares.fixed.attempt
  otherFixed := spares.otherFixed.attempt
  ends := by
    rw [content_attempt, content_attempt]
    exact .ok spares.ends
  reports := spares.reports

/-- An action that only the first one takes: it comes to a value, and counts what the other is spared. -/
theorem skip {act : Act α} {value : α} {next : α → Act γ} {other : Act δ} (fixed : act.Fixed tree)
    (ran : act.content = .ok value) (counts : act.reports.Spares gone {})
    (rest : (next value).Spares tree spared gone last other) :
    (act >>= next).Spares tree spared gone last other := by
  have later : ∀ result, act.content = .ok result → (next result).Fixed tree := by
    intro result same
    cases ran.symm.trans same
    exact rest.fixed
  constructor
  · exact fixed.bind later
  · exact rest.otherFixed
  · rw [content_bind fixed later, ran]
    exact rest.ends
  · rw [reports_bind fixed later, ran]
    have both := counts.add rest.reports
    rw [Diagnostics.none_add] at both
    exact both

theorem mapM {step : α → Act γ} {later : β → Act δ} {items : List α} {others : List β}
    (related : List.Forall₂ (fun item other => (step item).Spares tree spared gone last (later other)) items others) :
    (items.mapM step).Spares tree spared gone (List.Forall₂ last) (others.mapM later) := by
  induction related with
  | nil => exact pure .nil
  | cons first _ ih =>
      rw [List.mapM_cons, List.mapM_cons]
      exact first.bind fun _ _ here => ih.bind fun _ _ rest => pure (.cons here rest)

end Act.Spares

end EventSchema
