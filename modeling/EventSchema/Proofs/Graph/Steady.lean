import EventSchema.Proofs.Graph.Stages
import EventSchema.Proofs.Lineage.Walk
import EventSchema.Proofs.Steady

/-!
The graph of raw definitions is built steadily.

No step of the way to the graph asks what was read or reported before it. So what the definitions come
to, what is reported on the way and what is counted for it are the same from every run.

Two steps have notices of their own: the one that resolves the dictionary and the one that identifies the
classes. No other step reports any of these, so what a build tells of either is what that one step tells.
-/

set_option autoImplicit false

namespace EventSchema

inductive Topic where
  | dictionary
  | identity
  | other
deriving DecidableEq

def Notice.topic : Notice → Topic
  | fieldWithoutType _ | undefinedType _ _ | datetimeEnabled => .dictionary
  | otherCategory _ | noCategory _ | undefinedCategory _ _ | invalidUid _ _ | activityNotNumeric _ _
  | activityOutOfRange _ _ | noActivities _ => .identity
  | _ => .other

/-! ### Items flattened -/

namespace Lineage

variable {α β : Type}

namespace Flattening

/-- Whatever the run, the walk comes to the same, keeps the same and reports the same, all of it allowed. -/
def About (walk : Flattening α) (allowed : Notice → Prop) : Prop :=
  ∀ memo, ∃ outcome kept notices, (∀ notice ∈ notices, allowed notice) ∧
    ∀ run, walk.outcome memo run = (outcome, kept, run.reporting notices)

variable {allowed : Notice → Prop}

theorem about_pure (value : α) : About (pure value) allowed := fun memo =>
  ⟨.ok value, memo, [], List.forall_mem_nil _, fun run => by rw [outcome_pure, Run.reporting_nil]⟩

theorem about_throw (fault : Fault) : About (throw fault : Flattening α) allowed := fun memo =>
  ⟨.error fault, memo, [], List.forall_mem_nil _, fun run => by rw [outcome_throw, Run.reporting_nil]⟩

private theorem about_get : About (getThe (Entries Fields) : Flattening (Entries Fields)) allowed := fun memo =>
  ⟨.ok memo, memo, [], List.forall_mem_nil _, fun run => by rw [outcome_get, Run.reporting_nil]⟩

private theorem about_modify (change : Entries Fields → Entries Fields) :
    About (modifyThe (Entries Fields) change : Flattening PUnit) allowed := fun memo =>
  ⟨.ok (), change memo, [], List.forall_mem_nil _, fun run => by rw [outcome_modify, Run.reporting_nil]⟩

theorem about_lift (computation : Except Fault α) : About (liftM computation : Flattening α) allowed := fun memo =>
  ⟨computation, memo, [], List.forall_mem_nil _, fun run => by rw [outcome_lift, Run.reporting_nil]⟩

private theorem about_act {act : Act α} (about : act.About allowed) : About (liftM act : Flattening α) allowed := by
  obtain ⟨outcome, notices, apt, ran⟩ := about
  exact fun memo => ⟨outcome, memo, notices, apt, fun run => by rw [outcome_act, ran]⟩

theorem About.bind {walk : Flattening α} {next : α → Flattening β} (about : walk.About allowed)
    (later : ∀ value, (next value).About allowed) : About (walk >>= next) allowed := by
  intro memo
  obtain ⟨outcome, kept, notices, apt, ran⟩ := about memo
  cases outcome with
  | error fault => exact ⟨.error fault, kept, notices, apt, fun run => by rw [outcome_bind, ran]⟩
  | ok value =>
      obtain ⟨outcome, kept, others, fit, rest⟩ := later value kept
      refine ⟨outcome, kept, notices ++ others, List.forall_mem_append.mpr ⟨apt, fit⟩, fun run => ?_⟩
      rw [outcome_bind, ran]
      dsimp only
      rw [rest, Run.reporting_append]

theorem about_mapM {walk : α → Flattening β} {items : List α}
    (each : ∀ item ∈ items, (walk item).About allowed) : About (items.mapM walk) allowed := by
  induction items with
  | nil => exact about_pure []
  | cons head rest ih =>
      rw [List.mapM_cons]
      refine (each head (List.mem_cons_self ..)).bind fun _ => ?_
      exact (ih fun item member => each item (List.mem_cons_of_mem _ member)).bind fun _ => about_pure _

end Flattening

private theorem about_flatten (kind : ItemKind) (items : Fields) (way : List Text) (key : Text) :
    (flatten kind items way key).About (·.topic = .other) := by
  induction way, key using flatten.induct items with
  | case1 way key ih =>
      rw [flatten]
      refine Flattening.about_get.bind fun memo => ?_
      split
      · exact Flattening.about_pure _
      · split
        · exact Flattening.about_throw _
        · split
          · rename_i fresh present
            refine (Flattening.about_lift _).bind fun fields => ?_
            extract_lets keep
            have kept (flat : Fields) : (keep flat).About (·.topic = .other) :=
              (Flattening.about_modify _).bind fun _ => Flattening.about_pure _
            split
            · exact (Flattening.about_pure _).bind kept
            · split
              · exact (Flattening.about_lift _).bind kept
              · refine (Flattening.about_lift _).bind fun parent => ?_
                cases parent with
                | none =>
                    refine (Flattening.about_act (Act.about_leaveUnresolved (by rfl))).bind fun _ => ?_
                    exact (Flattening.about_lift _).bind fun _ => (Flattening.about_pure _).bind kept
                | some parent =>
                    refine (ih fresh present parent).bind fun ancestor => ?_
                    refine (Flattening.about_act (Act.about_note rfl (by rfl))).bind fun _ => ?_
                    exact (Flattening.about_lift _).bind fun _ => (Flattening.about_pure _).bind kept
          · exact Flattening.about_throw _

private theorem about_flattenEach (kind : ItemKind) (items : Fields) :
    (flattenEach kind items).About (·.topic = .other) :=
  Flattening.about_mapM fun key _ => (about_flatten kind items [] key).bind fun _ => Flattening.about_pure _

private theorem about_flattenAll (kind : ItemKind) (items : Fields) :
    (flattenAll kind items).About (·.topic = .other) := by
  obtain ⟨outcome, kept, notices, apt, ran⟩ := about_flattenEach kind items []
  exact ⟨outcome, notices, apt, fun run => by rw [outcome_flattenAll, ran]⟩

theorem steady_flattenAll (kind : ItemKind) (items : Fields) : (flattenAll kind items).Steady :=
  (about_flattenAll kind items).steady

end Lineage

/-! ### The steps of a draft -/

namespace Draft

open Act (about_pure about_lift about_note about_warn about_complain about_mapEntries about_foldlM
  about_forM about_forIn)

private theorem about_resolveType (draft : Draft) (name : Text) (value : Value) :
    (draft.resolveType name value).About (·.topic = .dictionary) := by
  unfold resolveType
  refine (about_lift _).bind fun field => ?_
  extract_lets type
  split
  · exact (about_warn rfl (by rfl)).bind fun _ => about_pure _
  · refine (about_lift _).bind fun known => ?_
    cases known with
    | some definition => exact (about_lift _).bind fun _ => about_pure _
    | none =>
        refine (about_lift _).bind fun found => ?_
        cases found with
        | some key => exact (about_lift _).bind fun _ => about_pure _
        | none => exact (about_warn rfl (by rfl)).bind fun _ => about_pure _

private theorem about_resolveDictionary (draft : Draft) : draft.resolveDictionary.About (·.topic = .dictionary) := by
  refine (about_mapEntries fun entry _ => draft.about_resolveType entry.1 entry.2).bind fun attributes => ?_
  refine (about_lift _).bind fun enabled => ?_
  split
  · refine (about_note rfl (by rfl)).bind fun _ => ?_
    exact (about_lift _).bind fun _ => about_pure _
  · exact about_pure _

private theorem about_localUid (key : Text) (item : Fields) : (localUid key item).About (·.topic = .identity) := by
  unfold localUid
  extract_lets uid
  split
  · split
    · exact about_pure _
    · exact (about_complain rfl (by rfl)).bind fun _ => about_pure _
  · exact (about_complain rfl (by rfl)).bind fun _ => about_pure _

private theorem about_addActivity (key : Text) (uid caption : Value) (types : Fields) (activity : Text × Value) :
    (addActivity key uid caption types activity).About (·.topic = .identity) := by
  unfold addActivity
  split
  · exact (about_warn rfl (by rfl)).bind fun _ => about_pure _
  · split
    · exact (about_lift _).bind fun _ => (about_lift _).bind fun _ => about_pure _
    · exact (about_warn rfl (by rfl)).bind fun _ => about_pure _

private theorem about_listTypes (key : Text) (uid caption : Value) (attributes : Fields) :
    (listTypes key uid caption attributes).About (·.topic = .identity) := by
  unfold listTypes
  extract_lets activities finish list
  have finished (types : Fields) : (finish types).About (·.topic = .identity) :=
    (about_lift _).bind fun _ => (about_lift _).bind fun _ => about_pure _
  have listed (enumeration : Value) : (list enumeration).About (·.topic = .identity) := by
    unfold list
    split
    · refine (about_lift _).bind fun activities => ?_
      exact (about_foldlM _ fun types activity _ => about_addActivity key uid caption types activity).bind
        finished
    · exact (about_warn rfl (by rfl)).bind fun _ => (about_pure _).bind finished
  split
  · exact (about_lift _).bind fun _ => (about_pure _).bind listed
  · exact (about_pure _).bind listed

theorem about_reportCategory {allowed : Notice → Prop} {key : Text} {name : Value}
    (other : allowed (.otherCategory key)) (without : allowed (.noCategory key))
    (undefined : allowed (.undefinedCategory key name)) (item : Fields) :
    (reportCategory key name item).About allowed := by
  unfold reportCategory
  split
  · exact (about_note rfl other).bind fun _ => about_pure _
  · split
    · split
      · exact (about_warn rfl without).bind fun _ => about_pure _
      · exact about_pure _
    · exact (about_warn rfl undefined).bind fun _ => about_pure _

private theorem about_identify (draft : Draft) (key : Text) (item : Fields) :
    (draft.identify key item).About (·.topic = .identity) := by
  unfold identify
  extract_lets caption name item
  refine (about_lift _).bind fun category => ?_
  extract_lets list
  have listed (found : Fields × Value) : (list found).About (·.topic = .identity) := by
    obtain ⟨item, categoryUid⟩ := found
    refine (about_localUid key _).bind fun own => ?_
    refine (about_lift _).bind fun outer => (about_lift _).bind fun uid => ?_
    refine (about_lift _).bind fun attributes => ?_
    refine (about_listTypes key uid caption _).bind fun attributes => ?_
    refine (about_lift _).bind fun attributes => ?_
    cases category with
    | some known => exact (about_lift _).bind fun _ => about_pure _
    | none => exact about_reportCategory (by rfl) (by rfl) (by rfl) _
  cases category with
  | some known => exact (about_lift _).bind fun _ => (about_pure _).bind listed
  | none => exact (about_pure _).bind listed

private theorem about_identifyClasses (draft : Draft) : draft.identifyClasses.About (·.topic = .identity) :=
  (about_mapEntries fun entry _ => draft.about_identify entry.1 entry.2).bind fun _ => about_pure _

private theorem about_listObservables (draft : Draft) : draft.listObservables.About (·.topic = .other) := by
  unfold listObservables
  split
  · split
    · exact (about_warn rfl (by rfl)).bind fun _ => about_pure _
    · exact about_pure _
  · refine (about_lift _).bind fun attributes => (about_lift _).bind fun ids => ?_
    exact (about_lift _).bind fun enumeration => about_pure _

private theorem about_checkProfiles (draft : Draft) (kind : ItemKind) (key : Text) (item : Fields) :
    (draft.checkProfiles kind key item).About (·.topic = .other) := by
  unfold checkProfiles
  refine (about_lift _).bind fun profiles => ?_
  refine (about_forIn _ fun profile _ _ => ?_).bind fun _ => ?_
  · refine (about_lift _).bind fun known => ?_
    split
    · exact (about_warn rfl (by rfl)).bind fun _ => about_pure _
    · exact about_pure _
  · refine (about_lift _).bind fun attributes =>
      (about_forIn _ fun entry _ _ => ?_).bind fun _ => about_pure _
    refine (about_lift _).bind fun field => ?_
    extract_lets profile
    split
    · refine (about_lift _).bind fun known => ?_
      split
      · exact (about_warn rfl (by rfl)).bind fun _ => about_pure _
      · exact about_pure _
    · exact about_pure _

private theorem about_closeProfiles (draft : Draft) (kind : ItemKind) (key : Text) (item : Fields) :
    (draft.closeProfiles kind key item).About (·.topic = .other) := by
  unfold closeProfiles
  extract_lets start
  refine (about_lift _).bind fun attributes => (about_lift _).bind fun reached => ?_
  extract_lets
  refine (about_lift _).bind fun profiles => ?_
  extract_lets finish
  have finished (done : Unit) : (finish done).About (·.topic = .other) := by
    unfold finish
    split
    · exact about_pure _
    · exact about_pure _
  split
  · exact (about_note rfl (by rfl)).bind finished
  · exact finished ()

private theorem about_closeAllProfiles (draft : Draft) : draft.closeAllProfiles.About (·.topic = .other) := by
  refine (about_foldlM _ fun draft key _ => ?_).bind fun draft => ?_
  · split
    · exact (draft.about_closeProfiles .object key _).bind fun _ => about_pure _
    · exact about_pure _
  · exact (about_mapEntries fun entry _ => draft.about_closeProfiles .eventClass entry.1 entry.2).bind
      fun _ => about_pure _

private theorem about_verify (draft : Draft) (kind : ItemKind) (key : Text) (item : Fields) :
    (draft.verify kind key item).About (·.topic = .other) := by
  unfold verify
  extract_lets deprecated check
  have checked (done : Unit) : (check done).About (·.topic = .other) := by
    unfold check
    refine (about_lift _).bind fun attributes =>
      (about_forIn _ fun entry _ _ => ?_).bind fun _ => about_pure _
    split
    · exact (about_warn rfl (by rfl)).bind fun _ => about_pure _
    · refine (about_lift _).bind fun shared => ?_
      extract_lets description describe
      have described (done : Unit) : (describe done).About (·.topic = .other) := by
        unfold describe
        refine (about_lift _).bind fun own => ?_
        split
        · refine (about_lift _).bind fun generic => ?_
          split
          · exact (about_warn rfl (by rfl)).bind fun _ => about_pure _
          · exact about_pure _
        · exact about_pure _
      split
      · exact (about_note rfl (by rfl)).bind described
      · exact described ()
  split
  · exact (about_note rfl (by rfl)).bind checked
  · exact checked ()

private theorem about_requireAll (draft : Draft) : draft.requireAll.About (·.topic = .other) := by
  unfold requireAll
  refine (about_lift _).bind fun named => (about_lift _).bind fun doneProfiles => ?_
  refine (about_lift _).bind fun classes => (about_lift _).bind fun objects => ?_
  dsimp only
  split
  · exact (about_warn rfl (by rfl)).bind fun _ => about_pure _
  · exact about_pure _

private theorem about_each {allowed : Notice → Prop} {items : Entries Fields} {act : Text → Fields → Act Unit}
    (about : ∀ key item, (act key item).About allowed) : (each items act).About allowed :=
  about_forM fun entry _ => about entry.1 entry.2

theorem steady_each {items : Entries Fields} {act : Text → Fields → Act Unit}
    (steady : ∀ key item, (act key item).Steady) : (each items act).Steady :=
  Act.steady_iff.mpr (about_each fun key item => Act.steady_iff.mp (steady key item))

/-! ### The whole way -/

/-- The draft of definitions with its items flattened and the hidden ones taken out. -/
def flattened (d : Definitions) : Act Draft := do
  let draft ← (Draft.ofDefinitions d : Except Fault Draft)
  let classes ← Lineage.flattenAll .eventClass (← d.classes.asFields)
  let objects ← Lineage.flattenAll .object (← d.objects.asFields)
  return ({ draft with classes, objects } : Draft).hideItems

def complete (draft : Draft) : Act Graph := do
  let draft ← draft.listObservables
  Draft.each draft.classes (draft.checkProfiles .eventClass)
  Draft.each draft.objects (draft.checkProfiles .object)
  let draft ← draft.closeAllProfiles
  let draft ← (draft.addDatetimeSiblings : Except Fault Draft)
  Draft.each draft.classes (draft.verify .eventClass)
  Draft.each draft.objects (draft.verify .object)
  let draft ← draft.requireAll
  let draft ← (draft.finish : Except Fault Draft)
  (draft.graph : Except Fault Graph)

private theorem about_flattened (d : Definitions) : (flattened d).About (·.topic = .other) := by
  refine (about_lift _).bind fun draft => ?_
  refine (about_lift _).bind fun classes => (Lineage.about_flattenAll _ _).bind fun classes => ?_
  refine (about_lift _).bind fun objects => (Lineage.about_flattenAll _ _).bind fun objects => ?_
  exact about_pure _

private theorem about_complete (draft : Draft) : draft.complete.About (·.topic = .other) := by
  refine draft.about_listObservables.bind fun draft => ?_
  refine (about_each (draft.about_checkProfiles .eventClass)).bind fun _ => ?_
  refine (about_each (draft.about_checkProfiles .object)).bind fun _ => ?_
  refine draft.about_closeAllProfiles.bind fun draft => (about_lift _).bind fun draft => ?_
  refine (about_each (draft.about_verify .eventClass)).bind fun _ => ?_
  refine (about_each (draft.about_verify .object)).bind fun _ => ?_
  exact draft.about_requireAll.bind fun draft => (about_lift _).bind fun draft => about_lift _

/-! ### Steadiness alone -/

theorem steady_resolveType (draft : Draft) (name : Text) (value : Value) :
    (draft.resolveType name value).Steady := (draft.about_resolveType name value).steady

theorem steady_resolveDictionary (draft : Draft) : draft.resolveDictionary.Steady :=
  draft.about_resolveDictionary.steady

theorem steady_localUid (key : Text) (item : Fields) : (localUid key item).Steady :=
  (about_localUid key item).steady

theorem steady_addActivity (key : Text) (uid caption : Value) (types : Fields) (activity : Text × Value) :
    (addActivity key uid caption types activity).Steady :=
  (about_addActivity key uid caption types activity).steady

theorem steady_listTypes (key : Text) (uid caption : Value) (attributes : Fields) :
    (listTypes key uid caption attributes).Steady := (about_listTypes key uid caption attributes).steady

theorem steady_reportCategory (key : Text) (name : Value) (item : Fields) :
    (reportCategory key name item).Steady :=
  Act.steady_iff.mpr (about_reportCategory trivial trivial trivial item)

theorem steady_identify (draft : Draft) (key : Text) (item : Fields) : (draft.identify key item).Steady :=
  (draft.about_identify key item).steady

private theorem steady_identifyClasses (draft : Draft) : draft.identifyClasses.Steady :=
  draft.about_identifyClasses.steady

theorem steady_listObservables (draft : Draft) : draft.listObservables.Steady :=
  draft.about_listObservables.steady

theorem steady_checkProfiles (draft : Draft) (kind : ItemKind) (key : Text) (item : Fields) :
    (draft.checkProfiles kind key item).Steady := (draft.about_checkProfiles kind key item).steady

theorem steady_closeAllProfiles (draft : Draft) : draft.closeAllProfiles.Steady :=
  draft.about_closeAllProfiles.steady

theorem steady_verify (draft : Draft) (kind : ItemKind) (key : Text) (item : Fields) :
    (draft.verify kind key item).Steady := (draft.about_verify kind key item).steady

theorem steady_requireAll (draft : Draft) : draft.requireAll.Steady := draft.about_requireAll.steady

end Draft

namespace Graph

/-- A build flattens the items, resolves the dictionary, identifies the classes and does all the rest. -/
theorem ofDefinitions_eq (d : Definitions) : ofDefinitions d =
    Draft.flattened d >>= fun draft => draft.resolveDictionary >>= fun draft =>
      draft.identifyClasses >>= Draft.complete := by
  unfold Draft.flattened
  simp only [bind_assoc, pure_bind]
  rfl

/-- The whole way from definitions to their graph is steady. -/
theorem steady_ofDefinitions (d : Definitions) : (ofDefinitions d).Steady := by
  rw [ofDefinitions_eq]
  refine (Draft.about_flattened d).steady.bind fun draft => draft.steady_resolveDictionary.bind fun draft => ?_
  exact draft.steady_identifyClasses.bind fun draft => draft.about_complete.steady

end Graph

/-! ### What a build tells -/

namespace Stages

variable {d : Definitions} {graph : Graph} (stages : Stages d graph)

private theorem flattening : ∃ notices, (Draft.flattened d).Tells stages.hidden notices := by
  obtain ⟨classNotices, flatClasses⟩ := (Lineage.steady_flattenAll _ _).tells stages.flattenClasses
  obtain ⟨objectNotices, flatObjects⟩ := (Lineage.steady_flattenAll _ _).tells stages.flattenObjects
  exact ⟨_, (Act.Tells.lift stages.starting).bind <| (Act.Tells.lift stages.readClasses).bind <|
    flatClasses.bind <| (Act.Tells.lift stages.readObjects).bind <| flatObjects.bind (.pure _)⟩

theorem reported {notices : List Notice} (tells : (Graph.ofDefinitions d).Tells graph notices) :
    ∃ before resolving identifying after, notices = before ++ (resolving ++ (identifying ++ after)) ∧
      stages.hidden.resolveDictionary.Tells stages.resolved resolving ∧
      stages.resolved.identifyClasses.Tells stages.identified identifying ∧
      (∀ notice ∈ before, notice.topic = .other) ∧ ∀ notice ∈ after, notice.topic = .other := by
  rw [Graph.ofDefinitions_eq] at tells
  have complete (draft : Draft) : draft.complete.Steady := draft.about_complete.steady
  have identify (draft : Draft) : (draft.identifyClasses >>= Draft.complete).Steady :=
    draft.steady_identifyClasses.bind complete
  obtain ⟨hidden, before, rest, flattens, going, rfl⟩ := Act.tells_bind (Draft.about_flattened d).steady
    (fun draft => draft.steady_resolveDictionary.bind identify) tells
  obtain ⟨_, flat⟩ := stages.flattening
  cases flattens.unique flat.yields
  obtain ⟨resolved, resolving, rest, resolves, last, rfl⟩ :=
    Act.tells_bind stages.hidden.steady_resolveDictionary identify going
  cases resolves.unique stages.resolving
  obtain ⟨identified, identifying, after, identifies, completes, rfl⟩ :=
    Act.tells_bind stages.resolved.steady_identifyClasses complete last
  cases identifies.unique stages.identifying
  exact ⟨before, resolving, identifying, after, rfl, resolves, identifies,
    flattens.all (Draft.about_flattened d), completes.all stages.identified.about_complete⟩

variable {keep : Notice → Bool} {notices : List Notice}

/-- Notices about something else are left out. -/
theorem filter_of_topic {topic own : Topic} (apart : topic ≠ own) (about : ∀ notice, keep notice = true →
    notice.topic = topic) (all : ∀ notice ∈ notices, notice.topic = own) : notices.filter keep = [] := by
  refine List.filter_eq_nil_iff.mpr fun notice member kept => apart ?_
  rw [← about notice kept, all notice member]

theorem reported_dictionary (about : ∀ notice, keep notice = true → notice.topic = .dictionary)
    (tells : (Graph.ofDefinitions d).Tells graph notices) :
    ∃ resolving, stages.hidden.resolveDictionary.Tells stages.resolved resolving ∧
      notices.filter keep = resolving.filter keep := by
  obtain ⟨before, resolving, identifying, after, rfl, resolves, identifies, first, last⟩ := stages.reported tells
  refine ⟨resolving, resolves, ?_⟩
  rw [List.filter_append, List.filter_append, List.filter_append, filter_of_topic (by decide) about first,
    filter_of_topic (by decide) about (identifies.all stages.resolved.about_identifyClasses),
    filter_of_topic (by decide) about last, List.nil_append, List.append_nil, List.append_nil]

theorem reported_identity (about : ∀ notice, keep notice = true → notice.topic = .identity)
    (tells : (Graph.ofDefinitions d).Tells graph notices) :
    ∃ identifying, stages.resolved.identifyClasses.Tells stages.identified identifying ∧
      notices.filter keep = identifying.filter keep := by
  obtain ⟨before, resolving, identifying, after, rfl, resolves, identifies, first, last⟩ := stages.reported tells
  refine ⟨identifying, identifies, ?_⟩
  rw [List.filter_append, List.filter_append, List.filter_append, filter_of_topic (by decide) about first,
    filter_of_topic (by decide) about (resolves.all stages.hidden.about_resolveDictionary),
    filter_of_topic (by decide) about last, List.nil_append, List.nil_append, List.append_nil]

end Stages

end EventSchema
