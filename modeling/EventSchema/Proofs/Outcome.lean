import EventSchema.Proofs.Entries
import EventSchema.Run

/-!
What actions come to.

An action *yields* a value if some run of it ends with that value. A sequence of actions that yields
something has yielded something at each of its steps, so a fact about a long sequence is put together
from facts about its steps. Two actions *agree* if, whatever was reported before them, they never
yield different values.
-/

set_option autoImplicit false

namespace EventSchema

variable {α β γ : Type}

/-! ### Computations that may fault -/

theorem ok_bind (value : α) (next : α → Except Fault β) : Except.ok value >>= next = next value :=
  rfl

/-- A sequence of two computations that succeeds has succeeded twice. -/
theorem bind_eq_ok {first : Except Fault α} {next : α → Except Fault β} {result : β} :
    first >>= next = .ok result ↔ ∃ value, first = .ok value ∧ next value = .ok result := by
  cases first with
  | error fault => simp [bind, Except.bind]
  | ok value => simp [bind, Except.bind]

theorem map_eq_ok {f : α → β} {first : Except Fault α} {result : β} :
    f <$> first = .ok result ↔ ∃ value, first = .ok value ∧ f value = result := by
  cases first with
  | error fault => simp [Functor.map, Except.map]
  | ok value => simp [Functor.map, Except.map]

@[simp]
theorem pure_eq_ok {value result : α} :
    (pure value : Except Fault α) = .ok result ↔ value = result := by
  simp [pure, Except.pure]

@[simp]
theorem throw_ne_ok {fault : Fault} {result : α} :
    (throw fault : Except Fault α) ≠ .ok result := by
  simp [throw, throwThe, MonadExceptOf.throw]

@[simp]
theorem misused_ne_ok {misuse : Misuse} {result : α} : misused (α := α) misuse ≠ .ok result := by
  simp [misused]

theorem toOption_eq_some {computation : Except Fault α} {value : α} :
    computation.toOption = some value ↔ computation = .ok value := by
  cases computation with
  | error fault => simp [Except.toOption]
  | ok other => simp [Except.toOption]

instance (computation : Except Fault α) (property : α → Prop) [DecidablePred property] :
    Decidable (∀ value, computation = .ok value → property value) :=
  match computation with
  | .ok value => decidable_of_iff (property value)
    ⟨fun holds _ same => Except.ok.inj same ▸ holds, fun each => each value rfl⟩
  | .error _ => isTrue fun _ impossible => by cases impossible

/-- A list of computations that succeeds has succeeded at every place. -/
theorem mapM_eq_ok {f : α → Except Fault β} {items : List α} {results : List β} :
    items.mapM f = .ok results ↔
      List.Forall₂ (fun item result => f item = .ok result) items results := by
  induction items generalizing results with
  | nil =>
      rw [List.mapM_nil, pure_eq_ok, List.forall₂_nil_left_iff]
      exact eq_comm
  | cons head rest ih =>
      rw [List.mapM_cons, bind_eq_ok, List.forall₂_cons_left_iff]
      constructor
      · rintro ⟨value, first, later⟩
        obtain ⟨values, others, same⟩ := bind_eq_ok.mp later
        exact ⟨value, values, first, ih.mp others, (pure_eq_ok.mp same).symm⟩
      · rintro ⟨value, values, first, others, same⟩
        exact ⟨value, first, bind_eq_ok.mpr ⟨values, ih.mpr others, pure_eq_ok.mpr same.symm⟩⟩

theorem mapM_congr {f g : α → Except Fault β} {items : List α}
    (same : ∀ item ∈ items, f item = g item) : items.mapM f = items.mapM g := by
  induction items with
  | nil => rfl
  | cons head rest ih =>
      rw [List.mapM_cons, List.mapM_cons, same head (List.mem_cons_self ..),
        ih fun item member => same item (List.mem_cons_of_mem _ member)]

theorem exists_mapM_ok {f : α → Except Fault β} {items : List α} (each : ∀ item ∈ items, ∃ value, f item = .ok value) :
    ∃ values, items.mapM f = .ok values := by
  induction items with
  | nil => exact ⟨[], rfl⟩
  | cons head rest ih =>
      obtain ⟨value, first⟩ := each head (List.mem_cons_self ..)
      obtain ⟨values, others⟩ := ih fun item member => each item (List.mem_cons_of_mem _ member)
      rw [List.mapM_cons, first, ok_bind, others, ok_bind]
      exact ⟨value :: values, rfl⟩

/-- Computations that all succeed give a list of what they compute. -/
theorem mapM_ok_map {f : α → Except Fault β} {g : α → β} {items : List α}
    (each : ∀ item ∈ items, f item = .ok (g item)) : items.mapM f = .ok (items.map g) := by
  rw [mapM_congr each]
  exact List.mapM_pure

theorem foldlM_invariant {motive : β → Prop} {step : β → α → Except Fault β} {items : List α}
    {start result : β} (ran : items.foldlM step start = .ok result) (initial : motive start)
    (kept : ∀ state item next, item ∈ items → motive state → step state item = .ok next →
      motive next) : motive result := by
  induction items generalizing start with
  | nil =>
      rw [List.foldlM_nil, pure_eq_ok] at ran
      exact ran ▸ initial
  | cons head rest ih =>
      rw [List.foldlM_cons] at ran
      obtain ⟨middle, first, later⟩ := bind_eq_ok.mp ran
      exact ih later (kept start head middle (List.mem_cons_self ..) initial first)
        (fun state item next member => kept state item next (List.mem_cons_of_mem _ member))

/-- A sequence of steps that succeeds has taken each of them. -/
theorem exists_step_of_foldlM {step : β → α → Except Fault β} {items : List α} {start result : β}
    (ran : items.foldlM step start = .ok result) {item : α} (member : item ∈ items) :
    ∃ state next, step state item = .ok next := by
  induction items generalizing start with
  | nil => cases member
  | cons head rest ih =>
      rw [List.foldlM_cons] at ran
      obtain ⟨middle, first, later⟩ := bind_eq_ok.mp ran
      rcases List.mem_cons.mp member with here | there
      · exact ⟨start, middle, here ▸ first⟩
      · exact ih later there

/-- What is left of a list of computations that may leave something out. -/
theorem exists_of_filterMapM {f : α → Except Fault (Option β)} {items : List α} {results : List β}
    (ran : items.filterMapM f = .ok results) {result : β} (member : result ∈ results) :
    ∃ item ∈ items, f item = .ok (some result) := by
  induction items generalizing results with
  | nil =>
      rw [List.filterMapM_nil, pure_eq_ok] at ran
      rw [← ran] at member
      cases member
  | cons head rest ih =>
      rw [List.filterMapM_cons] at ran
      obtain ⟨first, treated, ran⟩ := bind_eq_ok.mp ran
      cases first with
      | none =>
          obtain ⟨item, known, found⟩ := ih ran member
          exact ⟨item, List.mem_cons_of_mem _ known, found⟩
      | some value =>
          obtain ⟨others, later, same⟩ := bind_eq_ok.mp ran
          rw [← pure_eq_ok.mp same] at member
          rcases List.mem_cons.mp member with here | there
          · exact ⟨head, List.mem_cons_self .., here ▸ treated⟩
          · obtain ⟨item, known, found⟩ := ih later there
            exact ⟨item, List.mem_cons_of_mem _ known, found⟩

theorem mem_of_filterMapM {f : α → Except Fault (Option β)} {items : List α} {results : List β}
    (ran : items.filterMapM f = .ok results) {item : α} (member : item ∈ items) :
    ∃ found, f item = .ok found ∧ ∀ result ∈ found, result ∈ results := by
  induction items generalizing results with
  | nil => cases member
  | cons head rest ih =>
      rw [List.filterMapM_cons] at ran
      obtain ⟨first, treated, ran⟩ := bind_eq_ok.mp ran
      rcases List.mem_cons.mp member with rfl | there
      · refine ⟨first, treated, ?_⟩
        rintro result rfl
        obtain ⟨others, _, same⟩ := bind_eq_ok.mp ran
        rw [← pure_eq_ok.mp same]
        exact List.mem_cons_self ..
      · cases first with
        | none => exact ih ran there
        | some value =>
            obtain ⟨others, later, same⟩ := bind_eq_ok.mp ran
            obtain ⟨found, known, listed⟩ := ih later there
            rw [← pure_eq_ok.mp same]
            exact ⟨found, known, fun result held => List.mem_cons_of_mem _ (listed result held)⟩

private theorem mem_of_filterAuxM {f : α → Except Fault Bool} {items kept results : List α}
    (ran : items.filterAuxM f kept = .ok results) {item : α} (member : item ∈ results) :
    item ∈ kept ∨ item ∈ items ∧ f item = .ok true := by
  induction items generalizing kept with
  | nil =>
      rw [List.filterAuxM, pure_eq_ok] at ran
      exact Or.inl (ran ▸ member)
  | cons head rest ih =>
      rw [List.filterAuxM] at ran
      obtain ⟨wanted, asked, ran⟩ := bind_eq_ok.mp ran
      rcases ih ran with before | ⟨later, chosen⟩
      · cases wanted with
        | false => exact Or.inl before
        | true =>
            rcases List.mem_cons.mp before with rfl | old
            · exact Or.inr ⟨List.mem_cons_self .., asked⟩
            · exact Or.inl old
      · exact Or.inr ⟨List.mem_cons_of_mem _ later, chosen⟩

theorem mem_of_filterM {f : α → Except Fault Bool} {items results : List α}
    (ran : items.filterM f = .ok results) {item : α} (member : item ∈ results) :
    item ∈ items ∧ f item = .ok true := by
  unfold List.filterM at ran
  obtain ⟨kept, filtered, ran⟩ := bind_eq_ok.mp ran
  rw [← pure_eq_ok.mp ran, List.mem_reverse] at member
  exact (mem_of_filterAuxM filtered member).resolve_left List.not_mem_nil

/-! ### Entries treated one by one -/

/-- Entries whose values are treated one by one keep their keys. -/
theorem Entries.mapM_eq_ok {f : Text × α → Except Fault β} {items : Entries α}
    {results : Entries β} :
    (items.mapM fun entry => do return (entry.1, ← f entry)) = .ok results ↔
      Related (fun key item result => f (key, item) = .ok result) items results := by
  rw [EventSchema.mapM_eq_ok]
  have step (item : Text × α) (result : Text × β) :
      (do return (item.1, ← f item) : Except Fault (Text × β)) = .ok result ↔
        result.1 = item.1 ∧ f item = .ok result.2 := by
    rw [bind_eq_ok]
    constructor
    · rintro ⟨value, treated, same⟩
      rw [pure_eq_ok] at same
      subst same
      exact ⟨rfl, treated⟩
    · rintro ⟨key, treated⟩
      refine ⟨result.2, treated, pure_eq_ok.mpr ?_⟩
      rw [← key]
  exact ⟨List.Forall₂.imp fun item result => (step item result).mp,
    List.Forall₂.imp fun item result => (step item result).mpr⟩

/-! ### Actions of a run -/

namespace Act

/-- Some run of the action ends with the value. -/
def Yields (act : Act α) (value : α) : Prop :=
  ∃ run after, act.outcome run = (.ok value, after)

theorem Yields.of_outcome {act : Act α} {value : α} {run after : Run}
    (ran : act.outcome run = (.ok value, after)) : act.Yields value := ⟨run, after, ran⟩

@[simp]
theorem yields_pure {value result : α} : (pure value : Act α).Yields result ↔ value = result := by
  constructor
  · rintro ⟨run, after, ran⟩
    rw [outcome_pure] at ran
    injection ran with same _
    exact Except.ok.inj same
  · rintro rfl
    exact ⟨{}, {}, rfl⟩

@[simp]
theorem not_yields_throw {fault : Fault} {result : α} :
    ¬(throw fault : Act α).Yields result := by
  rintro ⟨run, after, ran⟩
  rw [outcome_throw] at ran
  injection ran with impossible _
  cases impossible

theorem outcome_bind_of_ok {act : Act α} {run middle : Run} {value : α} (ran : act.outcome run = (.ok value, middle))
    (next : α → Act β) : (act >>= next).outcome run = (next value).outcome middle := by
  rw [outcome_bind, ran]

theorem outcome_bind_of_error {act : Act α} {run after : Run} {fault : Fault}
    (ran : act.outcome run = (.error fault, after)) (next : α → Act β) :
    (act >>= next).outcome run = (.error fault, after) := by
  rw [outcome_bind, ran]

/-- A run that ends with a value has come to one at its first step, and went on from there. -/
theorem outcome_bind_ok {act : Act α} {next : α → Act β} {run after : Run} {result : β}
    (ran : (act >>= next).outcome run = (.ok result, after)) :
    ∃ value middle, act.outcome run = (.ok value, middle) ∧ (next value).outcome middle = (.ok result, after) := by
  rw [outcome_bind] at ran
  cases first : act.outcome run with
  | mk outcome middle =>
      rw [first] at ran
      cases outcome with
      | error fault => cases ran
      | ok value => exact ⟨value, middle, rfl, ran⟩

/-- A sequence that yields a value has yielded one at its first step. -/
theorem yields_bind {act : Act α} {next : α → Act β} {result : β}
    (ran : (act >>= next).Yields result) :
    ∃ value, act.Yields value ∧ (next value).Yields result := by
  obtain ⟨run, after, ran⟩ := ran
  obtain ⟨value, middle, first, later⟩ := outcome_bind_ok ran
  exact ⟨value, ⟨run, middle, first⟩, middle, after, later⟩

theorem outcome_lift (computation : Except Fault α) (run : Run) :
    (liftM computation : Act α).outcome run = (computation, run) := rfl

@[simp]
theorem yields_lift {computation : Except Fault α} {result : α} :
    (liftM computation : Act α).Yields result ↔ computation = .ok result := by
  constructor
  · rintro ⟨run, after, ran⟩
    rw [outcome_lift] at ran
    exact congrArg Prod.fst ran
  · intro computed
    exact ⟨{}, {}, by rw [outcome_lift, computed]⟩

/-- A list of actions that yields values has yielded one at every place. -/
theorem yields_mapM {f : α → Act β} {items : List α} {results : List β}
    (ran : (items.mapM f).Yields results) :
    List.Forall₂ (fun item result => (f item).Yields result) items results := by
  induction items generalizing results with
  | nil =>
      rw [List.mapM_nil, yields_pure] at ran
      exact ran ▸ List.Forall₂.nil
  | cons head rest ih =>
      rw [List.mapM_cons] at ran
      obtain ⟨value, first, later⟩ := yields_bind ran
      obtain ⟨values, others, same⟩ := yields_bind later
      exact yields_pure.mp same ▸ List.Forall₂.cons first (ih others)

/-- Entries whose values are treated one by one keep their keys. -/
theorem yields_mapEntries {f : Text × α → Act β} {items : Entries α} {results : Entries β}
    (ran : (items.mapM fun entry => do return (entry.1, ← f entry) : Act (Entries β)).Yields
      results) :
    Entries.Related (fun key item result => (f (key, item)).Yields result) items results := by
  refine (yields_mapM ran).imp ?_
  intro item result treated
  obtain ⟨value, first, same⟩ := yields_bind treated
  rw [yields_pure] at same
  subst same
  exact ⟨rfl, first⟩

/-- Wherever both actions yield a value, they yield the same. -/
def Agree (left right : Act α) : Prop :=
  ∀ first second, left.Yields first → right.Yields second → first = second

theorem agree_unit (left right : Act Unit) : Agree left right := fun _ _ _ _ => rfl

theorem agree_pure (value : α) : Agree (pure value) (pure value) := by
  intro first second left right
  rw [← yields_pure.mp left, ← yields_pure.mp right]

theorem agree_lift {left right : Except Fault α} (same : left = right) :
    Agree (liftM left) (liftM right) := by
  intro first second one two
  rw [yields_lift] at one two
  rw [← same, one] at two
  exact Except.ok.inj two

theorem Agree.bind {left right : Act α} {next later : α → Act β} (agree : Agree left right)
    (each : ∀ value, left.Yields value → right.Yields value → Agree (next value) (later value)) :
    Agree (left >>= next) (right >>= later) := by
  intro first second one two
  obtain ⟨value, ran, one⟩ := yields_bind one
  obtain ⟨other, also, two⟩ := yields_bind two
  have same := agree value other ran also
  subst same
  exact each value ran also first second one two

theorem agree_foldlM {first second : β → α → Act β} (items : List α) (start : β)
    (each : ∀ state item, item ∈ items → Agree (first state item) (second state item)) :
    Agree (items.foldlM first start) (items.foldlM second start) := by
  induction items generalizing start with
  | nil => exact agree_pure start
  | cons head rest ih =>
      rw [List.foldlM_cons, List.foldlM_cons]
      exact (each start head (List.mem_cons_self ..)).bind fun state _ _ =>
        ih state fun next item member => each next item (List.mem_cons_of_mem _ member)

/-- What is seen of the value that a run ends with is seen of a value that the action yields. -/
theorem exists_of_outcome {act : Act α} {view : α → β} {seen : β}
    (evaluated : (act.outcome {}).1.toOption.map view = some seen) :
    ∃ value, act.Yields value ∧ view value = seen := by
  cases ran : act.outcome {} with
  | mk outcome after =>
      rw [ran] at evaluated
      cases outcome with
      | error fault => cases evaluated
      | ok value => exact ⟨value, .of_outcome ran, Option.some.inj evaluated⟩

/-- Steps that are computations come to what they compute one after another. -/
theorem yields_foldlM_lift {step : β → α → Except Fault β} {items : List α} {start result : β}
    (ran : (items.foldlM (fun state item => (liftM (step state item) : Act β)) start).Yields result) :
    items.foldlM step start = .ok result := by
  induction items generalizing start with
  | nil => exact pure_eq_ok.mpr (yields_pure.mp ran)
  | cons head rest ih =>
      rw [List.foldlM_cons] at ran ⊢
      obtain ⟨middle, first, later⟩ := yields_bind ran
      exact bind_eq_ok.mpr ⟨middle, yields_lift.mp first, ih later⟩

/-- What holds before the first step and is carried on by every step holds after the last one. The
items treated so far are at hand. -/
theorem foldlM_progress {motive : List α → β → Prop} {step : β → α → Act β} {items : List α}
    {start result : β} (ran : (items.foldlM step start).Yields result) (initial : motive [] start)
    (kept : ∀ done item state next, motive done state → (step state item).Yields next →
      motive (done ++ [item]) next) : motive items result := by
  suffices general : ∀ (done : List α) (start : β), motive done start →
      (items.foldlM step start).Yields result → motive (done ++ items) result from
    general [] start initial ran
  clear ran initial
  induction items with
  | nil =>
      intro done start initial ran
      rw [List.foldlM_nil, yields_pure] at ran
      rw [List.append_nil]
      exact ran ▸ initial
  | cons head rest ih =>
      intro done start initial ran
      rw [List.foldlM_cons] at ran
      obtain ⟨middle, first, later⟩ := yields_bind ran
      have carried := ih (done ++ [head]) middle (kept done head start middle initial first) later
      rw [List.append_assoc, List.singleton_append] at carried
      exact carried

theorem foldlM_keeps {motive : β → Prop} {step : β → α → Act β} {items : List α} {start result : β}
    (ran : (items.foldlM step start).Yields result) (initial : motive start)
    (kept : ∀ state item next, item ∈ items → motive state → (step state item).Yields next →
      motive next) : motive result := by
  induction items generalizing start with
  | nil => exact yields_pure.mp ran ▸ initial
  | cons head rest ih =>
      rw [List.foldlM_cons] at ran
      obtain ⟨middle, first, later⟩ := yields_bind ran
      exact ih later (kept start head middle (List.mem_cons_self ..) initial first)
        fun state item next member => kept state item next (List.mem_cons_of_mem _ member)

end Act

end EventSchema
