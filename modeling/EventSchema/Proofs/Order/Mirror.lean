import Mathlib.Data.List.Perm.Basic
import EventSchema.Proofs.Steady

/-!
One action mirrored by another.

A computation is matched by another one if, whatever it comes to, the other comes to something that is
related to it. An action is mirrored if that holds from every two runs that counted the same problems, and
the same are counted after both. Steady actions can be taken in another order: what they come to, and what
is counted for them, is in another order then.
-/

set_option autoImplicit false

namespace EventSchema

variable {α β γ δ : Type}

/-! ### Computations -/

/-- Whatever the first computation comes to, the second comes to something related to it. -/
def Matched (relation : α → β → Prop) (computation : Except Fault α) (other : Except Fault β) : Prop :=
  ∀ value, computation = .ok value → ∃ result, other = .ok result ∧ relation value result

namespace Matched

variable {relation : α → β → Prop}

theorem ok {value : α} {result : β} (related : relation value result) : Matched relation (.ok value) (.ok result) := by
  rintro _ ⟨⟩
  exact ⟨result, rfl, related⟩

theorem pure {value : α} {result : β} (related : relation value result) :
    Matched relation (Pure.pure value : Except Fault α) (Pure.pure result : Except Fault β) := ok related

theorem error (fault : Fault) (other : Except Fault β) : Matched relation (.error fault) other := by
  rintro _ ⟨⟩

theorem refl (computation : Except Fault α) : Matched Eq computation computation :=
  fun value ran => ⟨value, ran, rfl⟩

theorem imp {weaker : α → β → Prop} {computation : Except Fault α} {other : Except Fault β}
    (matched : Matched relation computation other) (each : ∀ value result, relation value result →
      weaker value result) :
    Matched weaker computation other := by
  intro value ran
  obtain ⟨result, ended, related⟩ := matched value ran
  exact ⟨result, ended, each value result related⟩

theorem bind {last : γ → δ → Prop} {computation : Except Fault α} {other : Except Fault β}
    {next : α → Except Fault γ} {later : β → Except Fault δ} (matched : Matched relation computation other)
    (each : ∀ value result, relation value result → Matched last (next value) (later result)) :
    Matched last (computation >>= next) (other >>= later) := by
  intro value ran
  obtain ⟨first, begun, ran⟩ := bind_eq_ok.mp ran
  obtain ⟨result, started, related⟩ := matched first begun
  obtain ⟨final, ended, held⟩ := each first result related value ran
  exact ⟨final, by rw [started, ok_bind, ended], held⟩

theorem trans {next : β → γ → Prop} {computation : Except Fault α} {other : Except Fault β} {last : Except Fault γ}
    (first : Matched relation computation other) (second : Matched next other last) :
    Matched (fun value result => ∃ middle, relation value middle ∧ next middle result) computation last := by
  intro value ran
  obtain ⟨middle, begun, related⟩ := first value ran
  obtain ⟨result, ended, later⟩ := second middle begun
  exact ⟨result, ended, middle, related, later⟩

theorem both {computation : Except Fault α} {other : Except Fault β} (matched : Matched relation computation other) :
    Matched (fun value result => relation value result ∧ computation = .ok value ∧ other = .ok result)
      computation other := by
  intro value ran
  obtain ⟨result, ended, related⟩ := matched value ran
  exact ⟨result, ended, related, ran, ended⟩

theorem mapM {last : γ → δ → Prop} {step : α → Except Fault γ} {later : β → Except Fault δ} {items : List α}
    {others : List β} (related : List.Forall₂ (fun item other => Matched last (step item) (later other)) items others) :
    Matched (List.Forall₂ last) (items.mapM step) (others.mapM later) := by
  induction related with
  | nil => exact pure .nil
  | cons first _ ih =>
      rw [List.mapM_cons, List.mapM_cons]
      exact first.bind fun _ _ here => ih.bind fun _ _ others => pure (.cons here others)

/-- Lists matched place by place, from which the same places are left out. -/
theorem filterMapM {last : γ → δ → Prop} {step : α → Except Fault (Option γ)} {later : β → Except Fault (Option δ)}
    {items : List α} {others : List β}
    (related : List.Forall₂ (fun item other => Matched (Option.Rel last) (step item) (later other)) items others) :
    Matched (List.Forall₂ last) (items.filterMapM step) (others.filterMapM later) := by
  induction related with
  | nil => exact pure .nil
  | cons first _ ih =>
      rw [List.filterMapM_cons, List.filterMapM_cons]
      refine first.bind fun _ _ here => ?_
      cases here with
      | none => exact ih
      | some here => exact ih.bind fun _ _ others => pure (.cons here others)

/-- A list of computations taken in another order. -/
theorem mapM_perm {step : α → Except Fault β} {items others : List α} (perm : items.Perm others) :
    Matched List.Perm (items.mapM step) (others.mapM step) := by
  induction perm with
  | nil => exact pure .nil
  | cons item _ ih =>
      rw [List.mapM_cons, List.mapM_cons]
      exact (refl _).bind fun value _ same => ih.bind fun _ _ perm => pure (same ▸ perm.cons value)
  | swap first second rest =>
      intro values ran
      simp only [List.mapM_cons, bind_assoc, pure_bind] at ran ⊢
      obtain ⟨one, begun, ran⟩ := bind_eq_ok.mp ran
      obtain ⟨two, next, ran⟩ := bind_eq_ok.mp ran
      obtain ⟨others, later, ran⟩ := bind_eq_ok.mp ran
      rw [← pure_eq_ok.mp ran, next, ok_bind, begun, ok_bind, later, ok_bind]
      exact ⟨_, rfl, .swap two one others⟩
  | trans _ _ first second =>
      intro values ran
      obtain ⟨middle, begun, perm⟩ := first values ran
      obtain ⟨results, ended, later⟩ := second middle begun
      exact ⟨results, ended, perm.trans later⟩

end Matched

/-! ### Problems counted -/

/-- The same problems counted, the unresolved references in whatever order. -/
structure Diagnostics.Alike (left right : Diagnostics) : Prop where
  errors : left.errors = right.errors
  warnings : left.warnings = right.warnings
  unresolved : left.unresolved.Perm right.unresolved

namespace Diagnostics.Alike

variable {left right : Diagnostics}

theorem refl (counted : Diagnostics) : counted.Alike counted := ⟨rfl, rfl, .rfl⟩

theorem symm (alike : left.Alike right) : right.Alike left :=
  ⟨alike.errors.symm, alike.warnings.symm, alike.unresolved.symm⟩

theorem trans {last : Diagnostics} (first : left.Alike right) (second : right.Alike last) : left.Alike last :=
  ⟨first.errors.trans second.errors, first.warnings.trans second.warnings, first.unresolved.trans second.unresolved⟩

theorem add {more others : Diagnostics} (first : left.Alike right) (second : more.Alike others) :
    (left.add more).Alike (right.add others) where
  errors := congrArg₂ _ first.errors second.errors
  warnings := congrArg₂ _ first.warnings second.warnings
  unresolved := first.unresolved.append second.unresolved

theorem swap (first second third : Diagnostics) :
    (first.add (second.add third)).Alike (second.add (first.add third)) where
  errors := Nat.add_left_comm ..
  warnings := Nat.add_left_comm ..
  unresolved := by
    change (first.unresolved ++ (second.unresolved ++ third.unresolved)).Perm
      (second.unresolved ++ (first.unresolved ++ third.unresolved))
    rw [← List.append_assoc, ← List.append_assoc]
    exact List.perm_append_comm.append_right _

/-- Notices in another order count for the same problems. -/
theorem of_perm {notices others : List Notice} (perm : notices.Perm others) :
    (Diagnostics.ofNotices notices).Alike (.ofNotices others) := by
  induction perm with
  | nil => exact refl _
  | cons notice _ ih => exact (refl _).add ih
  | swap first second rest => exact swap second.problem first.problem (.ofNotices rest)
  | trans _ _ first second => exact first.trans second

end Diagnostics.Alike

/-! ### Actions -/

namespace Act

/-- Whatever the first action comes to, from runs that counted the same problems the second comes to
something related to it, and the same problems are counted then. -/
def Mirrors (relation : α → β → Prop) (act : Act α) (other : Act β) : Prop :=
  ∀ run run' value after, run.diagnostics.Alike run'.diagnostics → act.outcome run = (.ok value, after) →
    ∃ result after', other.outcome run' = (.ok result, after') ∧ relation value result ∧
      after.diagnostics.Alike after'.diagnostics

namespace Mirrors

variable {relation : α → β → Prop}

theorem pure {value : α} {result : β} (related : relation value result) :
    Mirrors relation (Pure.pure value : Act α) (Pure.pure result : Act β) := by
  intro run run' _ _ alike ran
  cases ran
  exact ⟨result, run', rfl, related, alike⟩

theorem lift {computation : Except Fault α} {other : Except Fault β} (matched : Matched relation computation other) :
    Mirrors relation (liftM computation : Act α) (liftM other : Act β) := by
  intro run run' value after alike ran
  rw [outcome_lift] at ran
  obtain ⟨computed, rfl⟩ := Prod.mk.inj ran
  obtain ⟨result, ended, related⟩ := matched value computed
  exact ⟨result, run', by rw [outcome_lift, ended], related, alike⟩

theorem imp {weaker : α → β → Prop} {act : Act α} {other : Act β} (mirrors : Mirrors relation act other)
    (each : ∀ value result, relation value result → weaker value result) : Mirrors weaker act other := by
  intro run run' value after alike ran
  obtain ⟨result, after', ended, related, counted⟩ := mirrors run run' value after alike ran
  exact ⟨result, after', ended, each value result related, counted⟩

theorem bind {last : γ → δ → Prop} {act : Act α} {other : Act β} {next : α → Act γ} {later : β → Act δ}
    (mirrors : Mirrors relation act other)
    (each : ∀ value result, relation value result → Mirrors last (next value) (later result)) :
    Mirrors last (act >>= next) (other >>= later) := by
  intro run run' value after alike ran
  obtain ⟨first, middle, begun, ran⟩ := outcome_bind_ok ran
  obtain ⟨result, middle', started, related, counted⟩ := mirrors run run' first middle alike begun
  obtain ⟨final, after', ended, held, last⟩ := each first result related middle middle' value after counted ran
  exact ⟨final, after', by rw [outcome_bind, started]; exact ended, held, last⟩

theorem trans {next : β → γ → Prop} {act : Act α} {other : Act β} {last : Act γ} (first : Mirrors relation act other)
    (second : Mirrors next other last) :
    Mirrors (fun value result => ∃ middle, relation value middle ∧ next middle result) act last := by
  intro run run' value after alike ran
  obtain ⟨middle, between, begun, related, counted⟩ := first run run' value after alike ran
  obtain ⟨result, after', ended, later, counted'⟩ := second run' run' middle between (.refl _) begun
  exact ⟨result, after', ended, ⟨middle, related, later⟩, counted.trans counted'⟩

/-- What both actions come to is at hand. -/
theorem yields {act : Act α} {other : Act β} (mirrors : Mirrors relation act other) :
    Mirrors (fun value result => relation value result ∧ act.Yields value ∧ other.Yields result) act other := by
  intro run run' value after alike ran
  obtain ⟨result, after', ended, related, counted⟩ := mirrors run run' value after alike ran
  exact ⟨result, after', ended, ⟨related, .of_outcome ran, .of_outcome ended⟩, counted⟩

theorem of_steady {act : Act α} (steady : act.Steady) : Mirrors Eq act act := by
  obtain ⟨outcome, notices, ran⟩ := steady
  intro run run' value after alike ended
  rw [ran] at ended
  obtain ⟨rfl, rfl⟩ := Prod.mk.inj ended
  exact ⟨value, _, ran run', rfl, alike.add (.refl _)⟩

theorem warn (notice other : Notice) :
    Mirrors (fun _ _ => True) (EventSchema.warn notice) (EventSchema.warn other) := by
  rintro run run' _ _ alike ⟨⟩
  exact ⟨(), _, rfl, trivial, ⟨alike.errors, congrArg (· + 1) alike.warnings, alike.unresolved⟩⟩

theorem note (notice other : Notice) :
    Mirrors (fun _ _ => True) (EventSchema.note notice) (EventSchema.note other) := by
  rintro run run' _ _ alike ⟨⟩
  exact ⟨(), _, rfl, trivial, alike⟩

theorem mapM {last : γ → δ → Prop} {act : α → Act γ} {other : β → Act δ} {items : List α} {others : List β}
    (related : List.Forall₂ (fun item result => Mirrors last (act item) (other result)) items others) :
    Mirrors (List.Forall₂ last) (items.mapM act) (others.mapM other) := by
  induction related with
  | nil => exact pure .nil
  | cons first _ ih =>
      rw [List.mapM_cons, List.mapM_cons]
      exact first.bind fun _ _ here => ih.bind fun _ _ others => pure (.cons here others)

theorem forM {act : α → Act Unit} {other : β → Act Unit} {items : List α} {others : List β}
    (related : List.Forall₂ (fun item result => Mirrors (fun _ _ => True) (act item) (other result)) items others) :
    Mirrors (fun _ _ => True) (items.forM act) (others.forM other) := by
  induction related with
  | nil => exact pure trivial
  | cons first _ ih => exact first.bind fun _ _ _ => ih

/-- Loops that carry nothing, mirrored place by place. -/
theorem forIn {act : α → PUnit → Act (ForInStep PUnit)} {other : β → PUnit → Act (ForInStep PUnit)} {items : List α}
    {others : List β} (related : List.Forall₂ (fun item result =>
      Mirrors Eq (act item PUnit.unit) (other result PUnit.unit)) items others) :
    Mirrors (fun _ _ => True) (ForIn.forIn items PUnit.unit act) (ForIn.forIn others PUnit.unit other) := by
  induction related with
  | nil =>
      rw [List.forIn_nil, List.forIn_nil]
      exact pure trivial
  | cons first _ ih =>
      rw [List.forIn_cons, List.forIn_cons]
      refine first.bind fun step _ same => ?_
      subst same
      cases step with
      | done => exact pure trivial
      | yield => exact ih

end Mirrors

/-- A loop that carries nothing and goes on after every step has taken the step of every item. -/
theorem yields_forIn {act : α → PUnit → Act (ForInStep PUnit)} {items : List α} {last : PUnit}
    (goes : ∀ item next, (act item PUnit.unit).Yields next → next = .yield PUnit.unit)
    (ran : (forIn items PUnit.unit act : Act PUnit).Yields last) :
    ∀ item ∈ items, (act item PUnit.unit).Yields (.yield PUnit.unit) := by
  induction items with
  | nil => exact List.forall_mem_nil _
  | cons head rest ih =>
      rw [List.forIn_cons] at ran
      obtain ⟨next, first, later⟩ := yields_bind ran
      cases goes head next first
      exact List.forall_mem_cons.mpr ⟨first, ih later⟩

/-! ### Actions that count nothing -/

/-- Whatever the action comes to, no problem is counted for it. -/
def CountsNothing (act : Act α) : Prop :=
  ∀ run value after, act.outcome run = (.ok value, after) → after.diagnostics = run.diagnostics

namespace CountsNothing

theorem pure (value : α) : (Pure.pure value : Act α).CountsNothing := by
  rintro run _ _ ⟨⟩
  rfl

theorem lift (computation : Except Fault α) : (liftM computation : Act α).CountsNothing := by
  intro run value after ran
  rw [outcome_lift] at ran
  rw [(Prod.mk.inj ran).2]

theorem note (notice : Notice) : (EventSchema.note notice).CountsNothing := by
  rintro run _ _ ⟨⟩
  rfl

theorem bind {act : Act α} {next : α → Act β} (first : act.CountsNothing)
    (later : ∀ value, (next value).CountsNothing) :
    (act >>= next).CountsNothing := by
  intro run value after ran
  obtain ⟨middle, between, begun, ended⟩ := outcome_bind_ok ran
  exact (later middle between value after ended).trans (first run middle between begun)

theorem mapM {act : α → Act β} {items : List α} (each : ∀ item ∈ items, (act item).CountsNothing) :
    (items.mapM act).CountsNothing := by
  induction items with
  | nil => exact pure []
  | cons head rest ih =>
      obtain ⟨first, others⟩ := List.forall_mem_cons.mp each
      rw [List.mapM_cons]
      exact first.bind fun _ => (ih others).bind fun _ => pure _

theorem foldlM {step : β → α → Act β} {items : List α} (start : β)
    (each : ∀ state, ∀ item ∈ items, (step state item).CountsNothing) : (items.foldlM step start).CountsNothing := by
  induction items generalizing start with
  | nil => exact pure start
  | cons head rest ih =>
      rw [List.foldlM_cons]
      exact (each start head (List.mem_cons_self ..)).bind fun state =>
        ih state fun state item member => each state item (List.mem_cons_of_mem _ member)

end CountsNothing

/-! ### Another order -/

/-- Steady actions taken in another order come to the same, in that order. -/
theorem Mirrors.mapM_perm {act : α → Act β} {items others : List α} (steady : ∀ item ∈ items, (act item).Steady)
    (perm : items.Perm others) : Mirrors List.Perm (items.mapM act) (others.mapM act) := by
  induction perm with
  | nil => exact .pure .nil
  | cons item _ ih =>
      obtain ⟨first, rest⟩ := List.forall_mem_cons.mp steady
      rw [List.mapM_cons, List.mapM_cons]
      exact (of_steady first).bind fun value _ same => (ih rest).bind fun _ _ perm => .pure (same ▸ perm.cons value)
  | swap first second rest =>
      obtain ⟨steadySecond, steady⟩ := List.forall_mem_cons.mp steady
      obtain ⟨steadyFirst, steady⟩ := List.forall_mem_cons.mp steady
      intro run run' values after alike ran
      simp only [List.mapM_cons, bind_assoc, pure_bind] at ran ⊢
      obtain ⟨two, middle, begun, ran⟩ := outcome_bind_ok ran
      obtain ⟨one, later, next, ran⟩ := outcome_bind_ok ran
      obtain ⟨others, last, ended, ran⟩ := outcome_bind_ok ran
      cases ran
      obtain ⟨notices, rfl, told⟩ := steadySecond.told begun
      obtain ⟨more, rfl, told'⟩ := steadyFirst.told next
      obtain ⟨rest, rfl, told''⟩ := (steady_mapM steady).told ended
      refine ⟨one :: two :: others, ((run'.reporting more).reporting notices).reporting rest, ?_,
                .swap one two others, ?_⟩
      · rw [outcome_bind, told' _]
        dsimp only
        rw [outcome_bind, told _]
        dsimp only
        rw [outcome_bind, told'' _]
        rfl
      · simp only [← Run.reporting_append]
        exact alike.add (.of_perm (List.perm_append_comm.append_right rest))
  | trans perm _ first second =>
      intro run run' values after alike ran
      obtain ⟨middle, between, begun, perm', counted⟩ := first steady run run' values after alike ran
      obtain ⟨results, after', ended, later, counted'⟩ :=
        second (fun item member => steady item (perm.mem_iff.mpr member)) run' run' middle between (.refl _) begun
      exact ⟨results, after', ended, perm'.trans later, counted.trans counted'⟩

theorem forM_eq_mapM (act : α → Act Unit) (items : List α) :
    items.forM act = items.mapM act >>= fun _ => pure () := by
  induction items with
  | nil => rfl
  | cons head rest ih =>
      change (act head >>= fun _ => rest.forM act) = _
      rw [ih, List.mapM_cons, bind_assoc]
      simp only [bind_assoc, pure_bind]

theorem Mirrors.forM_perm {act : α → Act Unit} {items others : List α} (steady : ∀ item ∈ items, (act item).Steady)
    (perm : items.Perm others) : Mirrors (fun _ _ => True) (items.forM act) (others.forM act) := by
  rw [forM_eq_mapM, forM_eq_mapM]
  exact (mapM_perm steady perm).bind fun _ _ _ => .pure trivial

end Act

end EventSchema
