import EventSchema.Fragment.Loader
import EventSchema.Proofs.Steady
import EventSchema.Proofs.Tree

/-!
Reading with a cache.

A run is faithful if the fragments that it holds are those of the files. An action is *fixed* by the
files if it comes to the same and counts the same problems from every faithful run, those of what it
reports, and leaves it faithful. So it makes no difference what was read before, and what a sequence of
fixed actions comes to is put together from what each of them comes to at the start of a run.
-/

set_option autoImplicit false

namespace EventSchema

variable {α β : Type} {tree : Tree}

/-- The fragments that a run holds are those of the files. -/
def Run.Faithful (tree : Tree) (run : Run) : Prop :=
  ∀ path fragment, run.cache.get? path = some fragment → Fragment.ofFile tree path = .ok fragment

theorem Run.faithful_start (tree : Tree) : ({} : Run).Faithful tree :=
  fun _ _ impossible => by cases impossible

/-- The fragments that a run holds are kept under resolved paths. -/
def Run.Resolved (tree : Tree) (run : Run) : Prop :=
  ∀ path fragment, run.cache.get? path = some fragment → tree.resolve path = path

/-- What an action made of a run: it counted the problems of the notices that it reported, and what it
read is that of the files, under resolved paths. -/
structure Run.Continues (tree : Tree) (counted : Diagnostics) (run after : Run) : Prop where
  faithful : after.Faithful tree
  counts : after.diagnostics = run.diagnostics.add counted
  told : ∃ notices, after.notices = run.notices ++ notices ∧ counted = .ofNotices notices
  resolved : run.Resolved tree → after.Resolved tree

theorem Run.Faithful.reporting {run : Run} (faithful : run.Faithful tree) (notices : List Notice) :
    run.Continues tree (.ofNotices notices) (run.reporting notices) where
  faithful := faithful
  counts := rfl
  told := ⟨notices, rfl, rfl⟩
  resolved := id

theorem Run.Faithful.unchanged {run : Run} (faithful : run.Faithful tree) : run.Continues tree {} run := by
  have told := faithful.reporting []
  rw [Run.reporting_nil] at told
  exact told

theorem Run.Continues.trans {first later : Diagnostics} {run middle after : Run}
    (start : run.Continues tree first middle) (rest : middle.Continues tree later after) :
    run.Continues tree (first.add later) after where
  faithful := rest.faithful
  counts := by rw [rest.counts, start.counts, Diagnostics.add_assoc]
  told := by
    obtain ⟨notices, reported, counted⟩ := start.told
    obtain ⟨others, reported', counted'⟩ := rest.told
    refine ⟨notices ++ others, ?_, ?_⟩
    · rw [reported', reported, List.append_assoc]
    · rw [Diagnostics.ofNotices_append, counted, counted']
  resolved := rest.resolved ∘ start.resolved

/-- The later run has told of more, and counted the problems of just that. -/
def Run.Tells (run after : Run) : Prop :=
  ∃ notices, after.notices = run.notices ++ notices ∧
    after.diagnostics = run.diagnostics.add (.ofNotices notices)

namespace Run.Tells

theorem trans {run middle after : Run} (first : run.Tells middle) (later : middle.Tells after) :
    run.Tells after := by
  obtain ⟨notices, reported, counted⟩ := first
  obtain ⟨others, reported', counted'⟩ := later
  refine ⟨notices ++ others, ?_, ?_⟩
  · rw [reported', reported, List.append_assoc]
  · rw [counted', counted, Diagnostics.ofNotices_append, Diagnostics.add_assoc]

theorem of_same {run after : Run} (notices : after.notices = run.notices)
    (diagnostics : after.diagnostics = run.diagnostics) : run.Tells after :=
  ⟨[], by rw [notices, List.append_nil], by rw [diagnostics]; exact (Diagnostics.add_none _).symm⟩

private theorem of_continues {counted : Diagnostics} {run after : Run} (continues : run.Continues tree counted after) :
    run.Tells after := by
  obtain ⟨notices, reported, rfl⟩ := continues.told
  exact ⟨notices, reported, continues.counts⟩

theorem of_steady {act : Act α} {result : Except Fault α} {run after : Run} (steady : act.Steady)
    (ran : act.outcome run = (result, after)) : run.Tells after := by
  obtain ⟨outcome, notices, same⟩ := steady
  cases (same run).symm.trans ran
  exact ⟨notices, rfl, rfl⟩

end Run.Tells

namespace Cache

theorem get?_put (path other : Path) (fragment : α) (cache : Cache α) :
    (cache.put path fragment).get? other =
      if path = other then some fragment else cache.get? other := by
  obtain ⟨fragments, opened⟩ := cache
  unfold get? put
  dsimp only
  induction fragments with
  | nil =>
      rw [putFragment, List.find?_cons]
      by_cases same : path = other <;> simp [same]
  | cons head rest ih =>
      obtain ⟨key, held⟩ := head
      rw [putFragment]
      by_cases here : key = path
      · rw [if_pos here, List.find?_cons, List.find?_cons, here]
        by_cases same : path = other <;> simp [same]
      · rw [if_neg here, List.find?_cons, List.find?_cons]
        by_cases same : key = other
        · have apart : path ≠ other := fun equal => here (same.trans equal.symm)
          simp [same, apart]
        · simp only [same, decide_false]
          exact ih

end Cache

namespace Act

/-- What an action comes to at the start of a run. -/
def content (act : Act α) : Except Fault α := (act.outcome {}).1

/-- The problems that an action counts at the start of a run. -/
def reports (act : Act α) : Diagnostics := (act.outcome {}).2.diagnostics

/-- Whatever was read before, the action comes to the same, counts the same problems and reads nothing
wrong. -/
def Fixed (tree : Tree) (act : Act α) : Prop :=
  ∀ run, run.Faithful tree →
    (act.outcome run).1 = act.content ∧ run.Continues tree act.reports (act.outcome run).2

theorem content_lift (computation : Except Fault α) :
    (liftM computation : Act α).content = computation :=
  congrArg Prod.fst (outcome_lift computation {})

/-- A computation leaves the run as it is, so what follows starts where it started. -/
theorem content_lift_bind (computation : Except Fault α) (next : α → Act β) :
    ((liftM computation : Act α) >>= next).content = computation >>= fun value => (next value).content := by
  unfold content
  rw [outcome_bind, outcome_lift]
  cases computation with
  | error fault => rfl
  | ok value => rfl

theorem outcome_map (f : α → β) (act : Act α) (run : Run) :
    (f <$> act).outcome run = (f <$> (act.outcome run).1, (act.outcome run).2) := by
  rw [map_eq_pure_bind, outcome_bind]
  cases act.outcome run with
  | mk result after => cases result <;> rfl

theorem attempt_map (f : α → β) (act : Act α) :
    (f <$> act).attempt = (f <$> ·) <$> act.attempt := by
  funext run
  change (f <$> act).attempt.outcome run = ((f <$> ·) <$> act.attempt).outcome run
  rw [outcome_map, outcome_attempt, outcome_attempt, outcome_map]
  rfl

theorem content_attempt (act : Act α) : act.attempt.content = .ok act.content := rfl

/-! ### Actions that read nothing -/

theorem Steady.fixed {act : Act α} (steady : act.Steady) : act.Fixed tree := by
  obtain ⟨outcome, notices, ran⟩ := steady
  intro run faithful
  have counted : act.reports = .ofNotices notices := by
    rw [reports, ran]
    exact Diagnostics.none_add _
  rw [counted, content, ran, ran]
  exact ⟨rfl, faithful.reporting notices⟩

theorem fixed_pure (value : α) : (pure value : Act α).Fixed tree := (steady_pure value).fixed

theorem fixed_throw (fault : Fault) : (throw fault : Act α).Fixed tree := (steady_throw fault).fixed

theorem fixed_lift (computation : Except Fault α) : (liftM computation : Act α).Fixed tree :=
  (steady_lift computation).fixed

theorem fixed_note {notice : Notice} (harmless : notice.problem = {}) : (note notice).Fixed tree :=
  (steady_note harmless).fixed

theorem fixed_warn {notice : Notice} (counts : notice.problem = { warnings := 1 }) :
    (warn notice).Fixed tree := (steady_warn counts).fixed

theorem fixed_leaveUnresolved (reference : Unresolved) : (leaveUnresolved reference).Fixed tree :=
  (steady_leaveUnresolved reference).fixed

/-! ### Sequences -/

theorem content_bind {first : Act α} {next : α → Act β} (fixed : first.Fixed tree)
    (later : ∀ value, first.content = .ok value → (next value).Fixed tree) :
    (first >>= next).content = first.content >>= fun value => (next value).content := by
  have after := (fixed {} (Run.faithful_start tree)).2.faithful
  unfold content at later ⊢
  rw [outcome_bind]
  cases ran : first.outcome {} with
  | mk outcome middle =>
      rw [ran] at after later
      cases outcome with
      | error fault => rfl
      | ok value => exact (later value rfl middle after).1

/-- The problems of a sequence are those of the first action, and then those of the next one. -/
theorem reports_bind {first : Act α} {next : α → Act β} (fixed : first.Fixed tree)
    (later : ∀ value, first.content = .ok value → (next value).Fixed tree) :
    (first >>= next).reports = match first.content with
      | .ok value => first.reports.add (next value).reports
      | .error _ => first.reports := by
  have after := (fixed {} (Run.faithful_start tree)).2.faithful
  unfold content reports at *
  rw [outcome_bind]
  cases ran : first.outcome {} with
  | mk outcome middle =>
      rw [ran] at after later
      cases outcome with
      | error fault => rfl
      | ok value => exact (later value rfl middle after).2.counts

theorem Fixed.bind {first : Act α} {next : α → Act β} (fixed : first.Fixed tree)
    (later : ∀ value, first.content = .ok value → (next value).Fixed tree) :
    (first >>= next).Fixed tree := by
  intro run faithful
  rw [content_bind fixed later, reports_bind fixed later, outcome_bind]
  obtain ⟨same, kept⟩ := fixed run faithful
  cases ran : first.outcome run with
  | mk outcome middle =>
      rw [ran] at same kept
      rw [← same]
      cases outcome with
      | error fault => exact ⟨rfl, kept⟩
      | ok value =>
          obtain ⟨known, rest⟩ := later value same.symm middle kept.faithful
          exact ⟨known, kept.trans rest⟩

/-- What a fixed action comes to in a faithful run is its content, and the run stays faithful. -/
theorem Fixed.step {act : Act α} (fixed : act.Fixed tree) {run after : Run} (faithful : run.Faithful tree)
    {value : α} (ran : act.outcome run = (.ok value, after)) :
    act.content = .ok value ∧ after.Faithful tree := by
  obtain ⟨same, continues⟩ := fixed run faithful
  rw [ran] at same continues
  exact ⟨same.symm, continues.faithful⟩

theorem Fixed.exists_step {act : Act α} (fixed : act.Fixed tree) {run : Run} (faithful : run.Faithful tree)
    {value : α} (computed : act.content = .ok value) :
    ∃ after, act.outcome run = (.ok value, after) ∧ after.Faithful tree := by
  obtain ⟨same, continues⟩ := fixed run faithful
  exact ⟨_, Prod.ext (same.trans computed) rfl, continues.faithful⟩

theorem Fixed.tells {act : Act α} (fixed : act.Fixed tree) {run after : Run} (faithful : run.Faithful tree)
    {value : α} (ran : act.outcome run = (.ok value, after)) : run.Tells after := by
  have continues := (fixed run faithful).2
  rw [ran] at continues
  exact .of_continues continues

theorem Fixed.map {act : Act α} (fixed : act.Fixed tree) (f : α → β) : (f <$> act).Fixed tree := by
  rw [map_eq_pure_bind]
  exact fixed.bind fun _ _ => fixed_pure _

theorem Fixed.attempt {act : Act α} (fixed : act.Fixed tree) : act.attempt.Fixed tree := by
  intro run faithful
  rw [outcome_attempt, content_attempt]
  exact ⟨congrArg Except.ok (fixed run faithful).1, (fixed run faithful).2⟩

theorem fixed_mapM {act : α → Act β} {items : List α}
    (each : ∀ item ∈ items, (act item).Fixed tree) : (items.mapM act).Fixed tree := by
  induction items with
  | nil => exact fixed_pure []
  | cons head rest ih =>
      rw [List.mapM_cons]
      refine (each head (List.mem_cons_self ..)).bind fun _ _ => ?_
      exact (ih fun item member => each item (List.mem_cons_of_mem _ member)).bind fun _ _ =>
        fixed_pure _

theorem content_mapM {act : α → Act β} {items : List α}
    (each : ∀ item ∈ items, (act item).Fixed tree) :
    (items.mapM act).content = items.mapM fun item => (act item).content := by
  induction items with
  | nil => rfl
  | cons head rest ih =>
      have own := each head (List.mem_cons_self ..)
      have others := fun item member => each item (List.mem_cons_of_mem head member)
      rw [List.mapM_cons, List.mapM_cons, content_bind own fun value _ =>
        (fixed_mapM others).bind fun _ _ => fixed_pure _]
      refine congrArg (_ >>= ·) (funext fun value => ?_)
      rw [content_bind (fixed_mapM others) fun _ _ => fixed_pure _, ih others]
      rfl

theorem fixed_foldlM {step : β → α → Act β} {items : List α} (start : β)
    (each : ∀ state, ∀ item ∈ items, (step state item).Fixed tree) :
    (items.foldlM step start).Fixed tree := by
  induction items generalizing start with
  | nil => exact fixed_pure start
  | cons head rest ih =>
      rw [List.foldlM_cons]
      exact (each start head (List.mem_cons_self ..)).bind fun state _ =>
        ih state fun next item member => each next item (List.mem_cons_of_mem _ member)

theorem content_foldlM {step : β → α → Act β} {items : List α} (start : β)
    (each : ∀ state, ∀ item ∈ items, (step state item).Fixed tree) :
    (items.foldlM step start).content = items.foldlM (fun state item => (step state item).content) start := by
  induction items generalizing start with
  | nil => rfl
  | cons head rest ih =>
      have own := each start head (List.mem_cons_self ..)
      have others := fun state item member => each state item (List.mem_cons_of_mem head member)
      rw [List.foldlM_cons, List.foldlM_cons, content_bind own fun state _ => fixed_foldlM state others]
      exact congrArg (_ >>= ·) (funext fun state => ih state others)

/-! ### Values from a faithful run -/

/-- Some faithful run of the action ends with the value. -/
def Settles (tree : Tree) (act : Act α) (value : α) : Prop :=
  ∃ run, run.Faithful tree ∧ (act.outcome run).1 = .ok value

theorem Settles.yields {act : Act α} {value : α} (settles : act.Settles tree value) :
    act.Yields value := by
  obtain ⟨run, _, same⟩ := settles
  exact ⟨run, (act.outcome run).2, Prod.ext same rfl⟩

theorem settles_of_content (tree : Tree) {act : Act α} {value : α} (found : act.content = .ok value) :
    act.Settles tree value := ⟨{}, Run.faithful_start tree, found⟩

/-- What a fixed action comes to is known, and the next one settles in its turn. -/
theorem Settles.bind {first : Act α} {next : α → Act β} {result : β} (fixed : first.Fixed tree)
    (settles : (first >>= next).Settles tree result) :
    ∃ value, first.content = .ok value ∧ (next value).Settles tree result := by
  obtain ⟨run, faithful, same⟩ := settles
  obtain ⟨known, kept⟩ := fixed run faithful
  rw [outcome_bind] at same
  cases ran : first.outcome run with
  | mk outcome middle =>
      rw [ran] at same known kept
      cases outcome with
      | error fault => cases same
      | ok value => exact ⟨value, known.symm, middle, kept.faithful, same⟩

theorem Settles.foldlM_invariant {motive : β → Prop} {step : β → α → Act β} {items : List α}
    {start result : β} (fixed : ∀ state, ∀ item ∈ items, (step state item).Fixed tree)
    (settles : (items.foldlM step start).Settles tree result) (initial : motive start)
    (kept : ∀ state item next, item ∈ items → motive state → (step state item).content = .ok next →
      motive next) : motive result := by
  obtain ⟨run, faithful, same⟩ := settles
  have told := (fixed_foldlM start fixed run faithful).1
  rw [same, content_foldlM start fixed] at told
  exact EventSchema.foldlM_invariant told.symm initial kept

/-- The first of two actions settles, whatever it does to the run. -/
theorem Settles.first {first : Act α} {next : α → Act β} {result : β}
    (settles : (first >>= next).Settles tree result) :
    ∃ value, first.Settles tree value ∧ (next value).Yields result := by
  obtain ⟨run, faithful, same⟩ := settles
  rw [outcome_bind] at same
  cases ran : first.outcome run with
  | mk outcome middle =>
      rw [ran] at same
      cases outcome with
      | error fault => cases same
      | ok value => exact ⟨value, ⟨run, faithful, congrArg Prod.fst ran⟩, middle, _, Prod.ext same rfl⟩

theorem settles_of_openCache (tree : Tree) {next : Unit → Act α} {value : α}
    (ran : (openCache >>= next).Yields value) : (next ()).Settles tree value := by
  obtain ⟨run, after, ran⟩ := ran
  have opened : ∃ middle : Run, openCache.outcome run = (.ok (), middle) ∧
      middle.cache = run.cache.init := by
    unfold openCache
    rw [outcome_bind]
    have asked : (get : Act Run).outcome run = (.ok run, run) := rfl
    rw [asked]
    dsimp only
    split
    · exact ⟨_, rfl, rfl⟩
    · exact ⟨_, rfl, rfl⟩
  obtain ⟨middle, opened, empty⟩ := opened
  rw [outcome_bind, opened] at ran
  refine ⟨middle, fun path fragment found => ?_, congrArg Prod.fst ran⟩
  rw [empty] at found
  cases found

/-- An action with something to be done in the end settles where the action itself does. -/
theorem Settles.of_finally {act : Act α} {last : Act Unit} {value : α}
    (settles : (act.finally last).Settles tree value) : act.Settles tree value := by
  unfold Act.finally at settles
  obtain ⟨outcome, ⟨run, faithful, same⟩, later⟩ := settles.first
  obtain ⟨_, _, later⟩ := yields_bind later
  rw [outcome_attempt, Except.ok.injEq] at same
  refine ⟨run, faithful, ?_⟩
  rw [same]
  cases outcome with
  | error fault => exact absurd later not_yields_throw
  | ok result => rw [yields_pure.mp later]

end Act

/-! ### Fragments -/

theorem Tree.resolveNamed_ok {file key : Path} (named : tree.resolveNamed file = .ok key) :
    key = tree.resolve file := by
  obtain ⟨_, _, resolved⟩ := bind_eq_ok.mp named
  exact (pure_eq_ok.mp resolved).symm

private theorem Fragment.outcome_borrow (tree : Tree) (file : Path) (run : Run) :
    (borrow tree file).outcome run = match tree.resolveNamed file with
      | .error fault => (.error fault, run)
      | .ok key => match run.cache.get? key with
        | some fragment => (.ok (.cached key fragment), run)
        | none =>
          let noted : Run := { run with notices := run.notices ++ [.fileRead key] }
          match ofFile tree key with
          | .error fault => (.error fault, noted)
          | .ok fragment =>
            (.ok (.cached key fragment), { noted with cache := run.cache.put key fragment }) := by
  unfold borrow
  rw [Act.outcome_bind, Act.outcome_lift]
  cases tree.resolveNamed file with
  | error fault => rfl
  | ok key =>
      have asked : (get : Act Run).outcome run = (.ok run, run) := rfl
      dsimp only
      rw [Act.outcome_bind, asked]
      dsimp only
      cases run.cache.get? key with
      | some fragment => rfl
      | none =>
          have noted : (note (.fileRead key)).outcome run =
            (.ok (), { run with notices := run.notices ++ [.fileRead key] }) := rfl
          dsimp only
          rw [Act.outcome_bind, noted]
          dsimp only
          rw [Act.outcome_bind, Act.outcome_lift]
          cases ofFile tree key <;> rfl

theorem Fragment.outcome_load (tree : Tree) (file : Path) (run : Run) :
    (Fragment.load tree file).outcome run = match tree.resolveNamed file with
      | .error fault => (.error fault, run)
      | .ok key => match run.cache.get? key with
        | some fragment => (.ok fragment, run)
        | none =>
          let noted : Run := { run with notices := run.notices ++ [.fileRead key] }
          match ofFile tree key with
          | .error fault => (.error fault, noted)
          | .ok fragment => (.ok fragment, { noted with cache := run.cache.put key fragment }) := by
  refine (Act.outcome_map (fun fragment => fragment.copy.fields) (borrow tree file) run).trans ?_
  rw [outcome_borrow]
  cases tree.resolveNamed file with
  | error fault => rfl
  | ok key =>
      dsimp only
      cases run.cache.get? key with
      | some fragment => rfl
      | none => cases ofFile tree key <;> rfl

private theorem Fragment.borrow_eq (file : Path) {run : Run} (faithful : run.Faithful tree) :
    ((borrow tree file).outcome run).1 =
        (tree.resolveNamed file >>= fun key => .cached key <$> ofFile tree key) ∧
      run.Continues tree {} ((borrow tree file).outcome run).2 := by
  rw [outcome_borrow]
  cases named : tree.resolveNamed file with
  | error fault => exact ⟨rfl, faithful.unchanged⟩
  | ok key =>
      rw [ok_bind]
      dsimp only
      cases held : run.cache.get? key with
      | some fragment =>
          rw [faithful key fragment held]
          exact ⟨rfl, faithful.unchanged⟩
      | none =>
          cases given : ofFile tree key with
          | error fault =>
              have told := faithful.reporting [.fileRead key]
              rw [Run.reporting_note rfl] at told
              exact ⟨rfl, told⟩
          | ok fragment =>
              have written (path : Path) (other : Fields)
                  (found : (run.cache.put key fragment).get? path = some other) :
                  (path = key ∧ other = fragment) ∨ run.cache.get? path = some other := by
                rw [Cache.get?_put] at found
                split at found
                · rename_i same
                  exact .inl ⟨same.symm, (Option.some.inj found).symm⟩
                · exact .inr found
              refine ⟨rfl, fun path other found => ?_, (Diagnostics.add_none _).symm,
                ⟨[.fileRead key], rfl, rfl⟩, fun resolved path other found => ?_⟩
              · obtain ⟨rfl, rfl⟩ | before := written path other found
                · exact given
                · exact faithful path other before
              · obtain ⟨rfl, -⟩ | before := written path other found
                · rw [Tree.resolveNamed_ok named]
                  exact tree.resolve_resolve file
                · exact resolved path other before

/-- A fragment that could be read is in the cache under its resolved path, and it is given as the cache
holds it. One that could not leaves the cache as it was. -/
theorem Fragment.borrow_cached (tree : Tree) (file : Path) (run : Run) :
    match (borrow tree file).outcome run with
    | (.ok borrowed, after) => ∃ fragment, after.cache.get? (tree.resolve file) = some fragment ∧
        borrowed = .cached (tree.resolve file) fragment
    | (.error _, after) => after.cache = run.cache := by
  rw [outcome_borrow]
  cases named : tree.resolveNamed file with
  | error fault => rfl
  | ok key =>
      rw [← Tree.resolveNamed_ok named]
      dsimp only
      cases held : run.cache.get? key with
      | some fragment => exact ⟨fragment, held, rfl⟩
      | none =>
          cases ofFile tree key with
          | error fault => rfl
          | ok fragment => exact ⟨fragment, (Cache.get?_put key key fragment run.cache).trans (if_pos rfl), rfl⟩

theorem Fragment.fixed_borrow (file : Path) : (borrow tree file).Fixed tree := by
  intro run faithful
  obtain ⟨same, kept⟩ := borrow_eq file faithful
  obtain ⟨start, counts⟩ := borrow_eq file (Run.faithful_start tree)
  have reports : (borrow tree file).reports = {} := by
    have counts := counts.counts
    rwa [Diagnostics.none_add] at counts
  rw [reports]
  exact ⟨same.trans start.symm, kept⟩

theorem Fragment.load_eq (file : Path) {run : Run} (faithful : run.Faithful tree) :
    ((Fragment.load tree file).outcome run).1 =
        (tree.resolveNamed file >>= fun key => ofFile tree key) ∧
      run.Continues tree {} ((Fragment.load tree file).outcome run).2 := by
  obtain ⟨same, kept⟩ := borrow_eq file faithful
  have copied := Act.outcome_map (fun fragment => fragment.copy.fields) (borrow tree file) run
  refine ⟨(congrArg Prod.fst copied).trans ?_, (congrArg Prod.snd copied) ▸ kept⟩
  dsimp only
  rw [same]
  cases tree.resolveNamed file with
  | error fault => rfl
  | ok key =>
      rw [ok_bind, ok_bind]
      cases ofFile tree key <;> rfl

theorem Fragment.reports_load (file : Path) : (Fragment.load tree file).reports = {} := by
  have counts := (load_eq file (Run.faithful_start tree)).2.counts
  rwa [Diagnostics.none_add] at counts

theorem Fragment.fixed_load (file : Path) : (Fragment.load tree file).Fixed tree :=
  (fixed_borrow file).bind fun _ _ => Act.fixed_pure _

end EventSchema
