import EventSchema.Proofs.Outcome
import EventSchema.Proofs.Problems

/-!
Steady actions.

An action is steady if it comes to the same and reports the same from every run, whatever was reported
or read before. It counts the problems of what it reports, and reads nothing. What a steady action reports
can be bounded: it is about some notices if it reports no others.

A steady action that comes to a value tells of the same from every run, so what it tells is a property of
the action. A sequence tells what its parts tell, one after another, and a list of actions what each of them
tells in turn.
-/

set_option autoImplicit false

namespace EventSchema

variable {α β : Type}

namespace Act

theorem outcome_note {notice : Notice} (harmless : notice.problem = {}) (run : Run) :
    (note notice).outcome run = (.ok (), run.reporting [notice]) := by
  rw [Run.reporting_note harmless]
  rfl

private theorem outcome_warn {notice : Notice} (counts : notice.problem = { warnings := 1 }) (run : Run) :
    (warn notice).outcome run = (.ok (), run.reporting [notice]) := by
  unfold Run.reporting
  rw [Diagnostics.ofNotices_singleton, counts, Diagnostics.add_warning]
  rfl

private theorem outcome_complain {notice : Notice} (counts : notice.problem = { errors := 1 }) (run : Run) :
    (complain notice).outcome run = (.ok (), run.reporting [notice]) := by
  unfold Run.reporting Diagnostics.add
  rw [Diagnostics.ofNotices_singleton, counts, List.append_nil]
  rfl

/-- From every run, the action comes to the same and reports the same. -/
def Steady (act : Act α) : Prop :=
  ∃ outcome notices, ∀ run, act.outcome run = (outcome, run.reporting notices)

/-- The action is steady, and whatever it reports is allowed. -/
def About (act : Act α) (allowed : Notice → Prop) : Prop :=
  ∃ outcome notices, (∀ notice ∈ notices, allowed notice) ∧
    ∀ run, act.outcome run = (outcome, run.reporting notices)

variable {allowed : Notice → Prop}

theorem About.steady {act : Act α} (about : act.About allowed) : act.Steady := by
  obtain ⟨outcome, notices, _, ran⟩ := about
  exact ⟨outcome, notices, ran⟩

theorem about_pure (value : α) : (pure value : Act α).About allowed :=
  ⟨.ok value, [], List.forall_mem_nil _, fun run => by rw [outcome_pure, Run.reporting_nil]⟩

theorem about_throw (fault : Fault) : (throw fault : Act α).About allowed :=
  ⟨.error fault, [], List.forall_mem_nil _, fun run => by rw [outcome_throw, Run.reporting_nil]⟩

theorem about_lift (computation : Except Fault α) : (liftM computation : Act α).About allowed :=
  ⟨computation, [], List.forall_mem_nil _, fun run => by rw [outcome_lift, Run.reporting_nil]⟩

theorem about_note {notice : Notice} (harmless : notice.problem = {}) (apt : allowed notice) :
    (note notice).About allowed :=
  ⟨.ok (), [notice], List.forall_mem_singleton.mpr apt, outcome_note harmless⟩

theorem about_warn {notice : Notice} (counts : notice.problem = { warnings := 1 }) (apt : allowed notice) :
    (warn notice).About allowed :=
  ⟨.ok (), [notice], List.forall_mem_singleton.mpr apt, outcome_warn counts⟩

theorem about_complain {notice : Notice} (counts : notice.problem = { errors := 1 }) (apt : allowed notice) :
    (complain notice).About allowed :=
  ⟨.ok (), [notice], List.forall_mem_singleton.mpr apt, outcome_complain counts⟩

theorem about_leaveUnresolved {reference : Unresolved} (apt : allowed (.unresolved reference)) :
    (leaveUnresolved reference).About allowed := by
  refine ⟨.ok (), [.unresolved reference], List.forall_mem_singleton.mpr apt, fun run => ?_⟩
  unfold Run.reporting
  rw [Diagnostics.ofNotices_singleton]
  rfl

theorem About.bind {first : Act α} {next : α → Act β} (about : first.About allowed)
    (later : ∀ value, (next value).About allowed) : (first >>= next).About allowed := by
  obtain ⟨outcome, notices, apt, ran⟩ := about
  cases outcome with
  | error fault => exact ⟨.error fault, notices, apt, fun run => by rw [outcome_bind, ran]⟩
  | ok value =>
      obtain ⟨outcome, others, fit, rest⟩ := later value
      refine ⟨outcome, notices ++ others, List.forall_mem_append.mpr ⟨apt, fit⟩, fun run => ?_⟩
      rw [outcome_bind, ran]
      dsimp only
      rw [rest, Run.reporting_append]

theorem about_mapM {act : α → Act β} {items : List α} (each : ∀ item ∈ items, (act item).About allowed) :
    (items.mapM act).About allowed := by
  induction items with
  | nil => exact about_pure []
  | cons head rest ih =>
      rw [List.mapM_cons]
      refine (each head (List.mem_cons_self ..)).bind fun _ => ?_
      exact (ih fun item member => each item (List.mem_cons_of_mem _ member)).bind fun _ => about_pure _

theorem about_mapEntries {act : Text × α → Act β} {items : Entries α}
    (each : ∀ entry ∈ items, (act entry).About allowed) :
    (items.mapM fun entry => do return (entry.1, ← act entry) : Act (Entries β)).About allowed :=
  about_mapM fun entry member => (each entry member).bind fun _ => about_pure _

theorem about_foldlM {step : β → α → Act β} {items : List α} (start : β)
    (each : ∀ state, ∀ item ∈ items, (step state item).About allowed) :
    (items.foldlM step start).About allowed := by
  induction items generalizing start with
  | nil => exact about_pure start
  | cons head rest ih =>
      rw [List.foldlM_cons]
      exact (each start head (List.mem_cons_self ..)).bind fun state =>
        ih state fun state item member => each state item (List.mem_cons_of_mem _ member)

theorem about_forM {act : α → Act Unit} {items : List α} (each : ∀ item ∈ items, (act item).About allowed) :
    (items.forM act).About allowed := by
  induction items with
  | nil => exact about_pure _
  | cons head rest ih =>
      change (act head >>= fun _ => rest.forM act).About allowed
      exact (each head (List.mem_cons_self ..)).bind fun _ =>
        ih fun item member => each item (List.mem_cons_of_mem _ member)

theorem about_forIn {step : α → β → Act (ForInStep β)} {items : List α} (start : β)
    (each : ∀ item ∈ items, ∀ state, (step item state).About allowed) :
    (forIn items start step : Act β).About allowed := by
  induction items generalizing start with
  | nil =>
      rw [List.forIn_nil]
      exact about_pure start
  | cons head rest ih =>
      rw [List.forIn_cons]
      refine (each head (List.mem_cons_self ..) start).bind fun next => ?_
      cases next with
      | done state => exact about_pure state
      | yield state => exact ih state fun item member => each item (List.mem_cons_of_mem _ member)

/-! ### Steadiness alone -/

def anything (_ : Notice) : Prop := True

theorem steady_iff {act : Act α} : act.Steady ↔ act.About anything := by
  constructor
  · rintro ⟨outcome, notices, ran⟩
    exact ⟨outcome, notices, fun _ _ => trivial, ran⟩
  · exact About.steady

theorem steady_pure (value : α) : (pure value : Act α).Steady := steady_iff.mpr (about_pure value)

theorem steady_throw (fault : Fault) : (throw fault : Act α).Steady := steady_iff.mpr (about_throw fault)

theorem steady_lift (computation : Except Fault α) : (liftM computation : Act α).Steady :=
  steady_iff.mpr (about_lift computation)

theorem steady_note {notice : Notice} (harmless : notice.problem = {}) : (note notice).Steady :=
  steady_iff.mpr (about_note harmless trivial)

theorem steady_warn {notice : Notice} (counts : notice.problem = { warnings := 1 }) : (warn notice).Steady :=
  steady_iff.mpr (about_warn counts trivial)

theorem steady_leaveUnresolved (reference : Unresolved) : (leaveUnresolved reference).Steady :=
  steady_iff.mpr (about_leaveUnresolved trivial)

theorem Steady.bind {first : Act α} {next : α → Act β} (steady : first.Steady)
    (later : ∀ value, (next value).Steady) : (first >>= next).Steady :=
  steady_iff.mpr ((steady_iff.mp steady).bind fun value => steady_iff.mp (later value))

theorem steady_mapM {act : α → Act β} {items : List α} (each : ∀ item ∈ items, (act item).Steady) :
    (items.mapM act).Steady :=
  steady_iff.mpr (about_mapM fun item member => steady_iff.mp (each item member))

theorem steady_mapEntries {act : Text × α → Act β} {items : Entries α}
    (each : ∀ entry ∈ items, (act entry).Steady) :
    (items.mapM fun entry => do return (entry.1, ← act entry) : Act (Entries β)).Steady :=
  steady_iff.mpr (about_mapEntries fun entry member => steady_iff.mp (each entry member))

theorem steady_foldlM {step : β → α → Act β} {items : List α} (start : β)
    (each : ∀ state, ∀ item ∈ items, (step state item).Steady) : (items.foldlM step start).Steady :=
  steady_iff.mpr (about_foldlM start fun state item member => steady_iff.mp (each state item member))

theorem steady_forIn {step : α → β → Act (ForInStep β)} {items : List α} (start : β)
    (each : ∀ item ∈ items, ∀ state, (step item state).Steady) :
    (forIn items start step : Act β).Steady :=
  steady_iff.mpr (about_forIn start fun item member state => steady_iff.mp (each item member state))

/-! ### Actions that come to a value -/

def ComesTo (act : Act α) (value : α) : Prop := ∀ run, ∃ after, act.outcome run = (.ok value, after)

theorem ComesTo.yields {act : Act α} {value : α} (comes : act.ComesTo value) : act.Yields value := by
  obtain ⟨after, ran⟩ := comes {}
  exact .of_outcome ran

theorem comesTo_pure (value : α) : (pure value : Act α).ComesTo value := fun run => ⟨run, outcome_pure value run⟩

theorem comesTo_lift {computation : Except Fault α} {value : α} (computed : computation = .ok value) :
    (liftM computation : Act α).ComesTo value := fun run => ⟨run, by rw [outcome_lift, computed]⟩

theorem comesTo_note (notice : Notice) : (note notice).ComesTo () := fun _ => ⟨_, rfl⟩

theorem ComesTo.bind {first : Act α} {next : α → Act β} {value : α} {result : β} (comes : first.ComesTo value)
    (later : (next value).ComesTo result) : (first >>= next).ComesTo result := by
  intro run
  obtain ⟨middle, ran⟩ := comes run
  obtain ⟨after, rest⟩ := later middle
  exact ⟨after, by rw [outcome_bind, ran]; exact rest⟩

theorem exists_comesTo_bind {motive : α → Prop} {first : Act α} {next : α → Act β}
    (comes : ∃ value, first.ComesTo value ∧ motive value)
    (later : ∀ value, motive value → ∃ result, (next value).ComesTo result) :
    ∃ result, (first >>= next).ComesTo result := by
  obtain ⟨value, begun, held⟩ := comes
  obtain ⟨result, rest⟩ := later value held
  exact ⟨result, begun.bind rest⟩

theorem ComesTo.exists_bind {first : Act α} {next : α → Act β} {value : α} (comes : first.ComesTo value)
    (later : ∃ result, (next value).ComesTo result) : ∃ result, (first >>= next).ComesTo result :=
  exists_comesTo_bind ⟨value, comes, rfl⟩ fun _ same => same ▸ later

theorem exists_comesTo_mapM {act : α → Act β} {items : List α}
    (each : ∀ item ∈ items, ∃ value, (act item).ComesTo value) : ∃ values, (items.mapM act).ComesTo values := by
  induction items with
  | nil => exact ⟨[], comesTo_pure []⟩
  | cons head rest ih =>
      obtain ⟨value, first⟩ := each head (List.mem_cons_self ..)
      obtain ⟨values, others⟩ := ih fun item member => each item (List.mem_cons_of_mem _ member)
      rw [List.mapM_cons]
      exact ⟨value :: values, first.bind (others.bind (comesTo_pure _))⟩

theorem exists_comesTo_foldlM {motive : β → Prop} {step : β → α → Act β} {items : List α} {start : β}
    (initial : motive start) (each : ∀ state, ∀ item ∈ items, motive state →
      ∃ next, (step state item).ComesTo next ∧ motive next) :
    ∃ result, (items.foldlM step start).ComesTo result ∧ motive result := by
  induction items generalizing start with
  | nil => exact ⟨start, comesTo_pure start, initial⟩
  | cons head rest ih =>
      obtain ⟨middle, first, held⟩ := each start head (List.mem_cons_self ..) initial
      obtain ⟨result, later, ended⟩ := ih held fun state item member =>
        each state item (List.mem_cons_of_mem _ member)
      rw [List.foldlM_cons]
      exact ⟨result, first.bind later, ended⟩

end Act

/-! ### What is told -/

private theorem Run.reporting_inj {run : Run} {notices others : List Notice}
    (same : run.reporting notices = run.reporting others) : notices = others :=
  List.append_cancel_left (congrArg Run.notices same)

namespace Act

def Tells (act : Act α) (value : α) (notices : List Notice) : Prop :=
  ∀ run, act.outcome run = (.ok value, run.reporting notices)

/-- A steady action that comes to a value comes to it from everywhere. -/
theorem Steady.told {act : Act α} (steady : act.Steady) {run after : Run} {value : α}
    (ran : act.outcome run = (.ok value, after)) :
    ∃ notices, after = run.reporting notices ∧ act.Tells value notices := by
  obtain ⟨outcome, notices, told⟩ := steady
  rw [told] at ran
  obtain ⟨rfl, rfl⟩ := Prod.mk.inj ran
  exact ⟨notices, rfl, told⟩

variable {act : Act α} {value : α} {notices : List Notice}

theorem Tells.yields (tells : act.Tells value notices) : act.Yields value := .of_outcome (tells {})

theorem Tells.unique {other : α} (tells : act.Tells value notices) (also : act.Yields other) :
    other = value := by
  obtain ⟨run, after, ran⟩ := also
  rw [tells run] at ran
  exact (Except.ok.inj (Prod.mk.inj ran).1).symm

/-- Nothing is reported but what the action is about. -/
theorem Tells.all {allowed : Notice → Prop} (tells : act.Tells value notices) (about : act.About allowed) :
    ∀ notice ∈ notices, allowed notice := by
  obtain ⟨outcome, others, apt, told⟩ := about
  have same : others = notices := Run.reporting_inj (Prod.mk.inj ((told {}).symm.trans (tells {}))).2
  exact same ▸ apt

theorem Tells.pure (value : α) : (Pure.pure value : Act α).Tells value [] :=
  fun run => (outcome_pure value run).trans (by rw [Run.reporting_nil])

theorem Tells.lift {computation : Except Fault α} (computed : computation = .ok value) :
    (liftM computation : Act α).Tells value [] :=
  fun run => (outcome_lift computation run).trans (by rw [computed, Run.reporting_nil])

theorem Tells.bind {next : α → Act β} {result : β} {others : List Notice} (first : act.Tells value notices)
    (later : (next value).Tells result others) : (act >>= next).Tells result (notices ++ others) := by
  intro run
  rw [outcome_bind, first run]
  dsimp only
  rw [later, Run.reporting_append]

theorem Steady.tells (steady : act.Steady) (yields : act.Yields value) : ∃ notices, act.Tells value notices := by
  obtain ⟨run, after, ran⟩ := yields
  obtain ⟨notices, _, told⟩ := steady.told ran
  exact ⟨notices, told⟩

theorem Tells.of_same {outcome : Except Fault α} {others : List Notice} (tells : act.Tells value notices)
    (same : ∀ run, act.outcome run = (outcome, run.reporting others)) : outcome = .ok value ∧ notices = others := by
  have told := (same {}).symm.trans (tells {})
  exact ⟨(Prod.mk.inj told).1, Run.reporting_inj (Prod.mk.inj told).2.symm⟩

theorem tells_pure {result : α} (tells : (pure value : Act α).Tells result notices) :
    value = result ∧ notices = [] := by
  obtain ⟨same, silent⟩ := tells.of_same fun run => (outcome_pure value run).trans (by rw [Run.reporting_nil])
  exact ⟨Except.ok.inj same, silent⟩

theorem tells_note {notice : Notice} {result : Unit} (harmless : notice.problem = {})
    (tells : (note notice).Tells result notices) : notices = [notice] :=
  (tells.of_same (outcome_note harmless)).2

private theorem tells_warn {notice : Notice} {result : Unit} (counts : notice.problem = { warnings := 1 })
    (tells : (warn notice).Tells result notices) : notices = [notice] :=
  (tells.of_same (outcome_warn counts)).2

private theorem tells_complain {notice : Notice} {result : Unit} (counts : notice.problem = { errors := 1 })
    (tells : (complain notice).Tells result notices) : notices = [notice] :=
  (tells.of_same (outcome_complain counts)).2

/-- A sequence tells what its first part tells, and then what the rest does. -/
theorem tells_bind {next : α → Act β} {result : β} (steady : act.Steady) (later : ∀ value, (next value).Steady)
    (tells : (act >>= next).Tells result notices) : ∃ value begun ended,
      act.Tells value begun ∧ (next value).Tells result ended ∧ notices = begun ++ ended := by
  obtain ⟨value, middle, ran, rest⟩ := outcome_bind_ok (tells {})
  obtain ⟨begun, rfl, first⟩ := steady.told ran
  obtain ⟨ended, same, last⟩ := (later value).told rest
  rw [← Run.reporting_append] at same
  exact ⟨value, begun, ended, first, last, Run.reporting_inj same⟩

theorem tells_lift_bind {computation : Except Fault α} {next : α → Act β} {result : β}
    (tells : ((liftM computation : Act α) >>= next).Tells result notices) :
    ∃ value, computation = .ok value ∧ (next value).Tells result notices := by
  cases computation with
  | error fault => cases (Prod.mk.inj (tells {})).1
  | ok value => exact ⟨value, rfl, tells⟩

theorem tells_warn_pure {notice : Notice} {result : α} (counts : notice.problem = { warnings := 1 })
    (tells : (warn notice >>= fun _ => pure value).Tells result notices) : value = result ∧ notices = [notice] := by
  obtain ⟨_, begun, ended, first, last, rfl⟩ := tells_bind (steady_warn counts) (fun _ => steady_pure _) tells
  obtain ⟨same, rfl⟩ := tells_pure last
  rw [tells_warn counts first, List.append_nil]
  exact ⟨same, rfl⟩

private theorem tells_mapM {each : α → Act β} {items : List α} {results : List β} (steady : ∀ item, (each item).Steady)
    (tells : (items.mapM each).Tells results notices) : ∃ told : List (β × List Notice),
      List.Forall₂ (fun item one => (each item).Tells one.1 one.2) items told ∧
        results = told.map Prod.fst ∧ notices = told.flatMap Prod.snd := by
  induction items generalizing results notices with
  | nil =>
      obtain ⟨rfl, rfl⟩ := tells_pure tells
      exact ⟨[], .nil, rfl, rfl⟩
  | cons head rest ih =>
      rw [List.mapM_cons] at tells
      have others : (rest.mapM each).Steady := steady_mapM fun item _ => steady item
      obtain ⟨value, begun, ended, first, rested, rfl⟩ :=
        tells_bind (steady head) (fun _ => others.bind fun _ => steady_pure _) tells
      obtain ⟨values, later, last, next, done, rfl⟩ := tells_bind others (fun _ => steady_pure _) rested
      obtain ⟨rfl, rfl⟩ := tells_pure done
      obtain ⟨told, related, rfl, rfl⟩ := ih next
      exact ⟨(value, begun) :: told, .cons first related, rfl, by rw [List.append_nil, List.flatMap_cons]⟩

/-- Entries whose values are treated one by one keep their keys. -/
theorem tells_mapEntries {each : Text × α → Act β} {items : Entries α} {results : Entries β}
    (steady : ∀ entry, (each entry).Steady)
    (tells : (items.mapM fun entry => do return (entry.1, ← each entry) : Act (Entries β)).Tells results notices) :
    ∃ told : Entries (β × List Notice),
      Entries.Related (fun key item one => (each (key, item)).Tells one.1 one.2) items told ∧
        results = told.map (fun one => (one.1, one.2.1)) ∧ notices = told.flatMap fun one => one.2.2 := by
  obtain ⟨told, related, rfl, rfl⟩ := tells_mapM (fun entry => (steady entry).bind fun _ => steady_pure _) tells
  refine ⟨told.map fun one => (one.1.1, one.1.2, one.2), ?_, ?_, ?_⟩
  · refine List.forall₂_map_right_iff.mpr (related.imp fun entry one tells => ?_)
    obtain ⟨value, begun, ended, first, last, shape⟩ := tells_bind (steady entry) (fun _ => steady_pure _) tells
    obtain ⟨same, rfl⟩ := tells_pure last
    rw [← same, shape, List.append_nil]
    exact ⟨rfl, first⟩
  · rw [List.map_map]
    rfl
  · rw [List.flatMap_map]

/-! ### Notices of one sort -/

structure Shows (act : Act α) (keep : Notice → Bool) (told : List Notice) : Prop where
  steady : act.Steady
  filter : ∀ value notices, act.Tells value notices → notices.filter keep = told

variable {keep : Notice → Bool} {told others : List Notice}

theorem About.shows {allowed : Notice → Prop} (about : act.About allowed)
    (apart : ∀ notice, allowed notice → keep notice = false) : act.Shows keep [] where
  steady := about.steady
  filter _ _ tells := List.filter_eq_nil_iff.mpr fun notice member =>
    Bool.not_eq_true _ ▸ apart notice (tells.all about notice member)

theorem shows_pure (value : α) : (pure value : Act α).Shows keep [] := by
  have about : (pure value : Act α).About fun _ => False := about_pure value
  exact about.shows fun _ => False.elim

theorem shows_warn {notice : Notice} (counts : notice.problem = { warnings := 1 }) (kept : keep notice = true) :
    (warn notice).Shows keep [notice] where
  steady := steady_warn counts
  filter _ _ tells := by rw [tells_warn counts tells, List.filter_cons, if_pos kept, List.filter_nil]

theorem shows_complain {notice : Notice} (counts : notice.problem = { errors := 1 }) (kept : keep notice = true) :
    (complain notice).Shows keep [notice] where
  steady := steady_iff.mpr (about_complain counts trivial)
  filter _ _ tells := by rw [tells_complain counts tells, List.filter_cons, if_pos kept, List.filter_nil]

theorem Shows.bind {next : α → Act β} (first : act.Shows keep told)
    (later : ∀ value, (next value).Shows keep others) : (act >>= next).Shows keep (told ++ others) where
  steady := first.steady.bind fun value => (later value).steady
  filter result notices tells := by
    obtain ⟨value, begun, ended, begins, ends, rfl⟩ :=
      tells_bind first.steady (fun value => (later value).steady) tells
    rw [List.filter_append, first.filter _ _ begins, (later value).filter _ _ ends]

/-- What comes after an action may show nothing more. -/
theorem Shows.before {next : α → Act β} (first : act.Shows keep told) (later : ∀ value, (next value).Shows keep []) :
    (act >>= next).Shows keep told :=
  List.append_nil told ▸ first.bind later

theorem shows_pure_bind {next : α → Act β} (later : (next value).Shows keep told) :
    ((pure value : Act α) >>= next).Shows keep told := later

/-- A computation before an action shows nothing, and what it comes to is known of the action. -/
theorem shows_lift_bind {computation : Except Fault α} {next : α → Act β}
    (later : ∀ value, computation = .ok value → (next value).Shows keep told) :
    ((liftM computation : Act α) >>= next).Shows keep told := by
  cases computation with
  | error fault => exact {
      steady := ⟨.error fault, [], fun run => by rw [Run.reporting_nil]; rfl⟩
      filter := fun _ _ tells => by cases (Prod.mk.inj (tells {})).1 }
  | ok value => exact later value rfl

/-- Steps that show something of their own whatever the state show it in turn. -/
theorem shows_foldlM {step : β → α → Act β} {tell : α → List Notice} (items : List α) (start : β)
    (each : ∀ state item, (step state item).Shows keep (tell item)) :
    (items.foldlM step start).Shows keep (items.flatMap tell) := by
  induction items generalizing start with
  | nil => exact shows_pure start
  | cons head rest ih =>
      rw [List.foldlM_cons, List.flatMap_cons]
      exact (each start head).bind fun state => ih state

theorem shows_mapEntries {each : Text × α → Act β} {tell : Text × α → List Notice} {items : Entries α}
    (shows : ∀ entry, (each entry).Shows keep (tell entry)) :
    (items.mapM fun entry => do return (entry.1, ← each entry) : Act (Entries β)).Shows keep
      (items.flatMap tell) := by
  induction items with
  | nil => exact shows_pure []
  | cons head rest ih =>
      rw [List.mapM_cons, List.flatMap_cons, ← List.append_nil (tell head)]
      refine ((shows head).bind fun _ => shows_pure _).bind fun _ => ?_
      rw [← List.append_nil (rest.flatMap tell)]
      exact ih.bind fun _ => shows_pure _

end Act

end EventSchema
