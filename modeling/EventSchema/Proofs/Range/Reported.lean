import EventSchema.Proofs.Definitions
import EventSchema.Proofs.Draft.Classes
import EventSchema.Proofs.Range.Compilation

/-!
Identifiers out of their ranges are reported.

A class whose uid is no whole number below a thousand is complained of, and an activity whose number is
not below a hundred is warned of. Both count as problems of the compilation, which goes on without them.
-/

set_option autoImplicit false

namespace EventSchema

variable {α β : Type} {tree : Tree} {notice : Notice}

/-! ### Notices of an action -/

/-- Whenever the action comes to a value, the notice is among what it mentions. -/
def Act.Mentions (act : Act α) (notice : Notice) : Prop :=
  ∀ run result after, act.outcome run = (.ok result, after) →
    ∃ notices, after = run.reporting notices ∧ notice ∈ notices

namespace Act

private theorem mentions_warn (counts : notice.problem = { warnings := 1 }) : (warn notice).Mentions notice := by
  intro run result after ran
  refine ⟨[notice], ?_, List.mem_singleton_self _⟩
  unfold Run.reporting
  rw [Diagnostics.ofNotices_singleton, counts, Diagnostics.add_warning]
  exact (Prod.mk.inj ran).2.symm

private theorem mentions_complain (counts : notice.problem = { errors := 1 }) : (complain notice).Mentions notice := by
  intro run result after ran
  refine ⟨[notice], ?_, List.mem_singleton_self _⟩
  unfold Run.reporting Diagnostics.add
  rw [Diagnostics.ofNotices_singleton, counts, List.append_nil]
  exact (Prod.mk.inj ran).2.symm

/-- What is reported first stays reported if the rest is steady. -/
theorem Mentions.bind {first : Act α} {next : α → Act β} (mentions : first.Mentions notice)
    (steady : ∀ value, (next value).Steady) : (first >>= next).Mentions notice := by
  intro run result after ran
  obtain ⟨value, middle, ran, rest⟩ := outcome_bind_ok ran
  obtain ⟨notices, rfl, member⟩ := mentions run value middle ran
  obtain ⟨outcome, others, same⟩ := steady value
  cases (same _).symm.trans rest
  exact ⟨notices ++ others, (Run.reporting_append ..).symm, List.mem_append_left _ member⟩

private theorem Steady.mentions_bind {first : Act α} {next : α → Act β} (steady : first.Steady)
    (mentions : ∀ value, first.Yields value → (next value).Mentions notice) : (first >>= next).Mentions notice := by
  intro run result after ran
  obtain ⟨value, middle, ran, rest⟩ := outcome_bind_ok ran
  obtain ⟨outcome, notices, same⟩ := steady
  cases (same _).symm.trans ran
  obtain ⟨others, rfl, member⟩ := mentions value (.of_outcome ran) _ result after rest
  exact ⟨notices ++ others, (Run.reporting_append ..).symm, List.mem_append_right _ member⟩

private theorem mentions_mapM {act : α → Act β} {items : List α} {item : α} (steady : ∀ item ∈ items, (act item).Steady)
    (member : item ∈ items) (mentions : (act item).Mentions notice) : (items.mapM act).Mentions notice := by
  induction items with
  | nil => cases member
  | cons head rest ih =>
      have others : (rest.mapM act).Steady :=
        steady_mapM fun item member => steady item (List.mem_cons_of_mem _ member)
      rw [List.mapM_cons]
      rcases List.mem_cons.mp member with rfl | later
      · exact mentions.bind fun _ => others.bind fun _ => steady_pure _
      · refine (steady head (List.mem_cons_self ..)).mentions_bind fun _ _ => ?_
        exact (ih (fun item member => steady item (List.mem_cons_of_mem _ member)) later).bind
          fun _ => steady_pure _

private theorem mentions_foldlM {step : β → α → Act β} {items : List α} {item : α} (start : β)
    (steady : ∀ state, ∀ item ∈ items, (step state item).Steady) (member : item ∈ items)
    (mentions : ∀ state, (step state item).Mentions notice) : (items.foldlM step start).Mentions notice := by
  induction items generalizing start with
  | nil => cases member
  | cons head rest ih =>
      have steadyRest : ∀ state, ∀ item ∈ rest, (step state item).Steady :=
        fun state item member => steady state item (List.mem_cons_of_mem _ member)
      rw [List.foldlM_cons]
      rcases List.mem_cons.mp member with rfl | later
      · exact (mentions start).bind fun state => steady_foldlM state steadyRest
      · exact (steady start head (List.mem_cons_self ..)).mentions_bind fun state _ => ih state steadyRest later

end Act

/-! ### Classes -/

private theorem Value.truthy_of_mem_inner {value : Value} {entry : Text × Value} (member : entry ∈ value.inner) :
    value.truthy = true := by
  cases value with
  | object mark fields =>
      cases fields with
      | nil => cases member
      | cons head rest => rfl
  | null | bool _ | int _ | float _ | text _ | array _ => cases member

/-- A value is a whole number in the range of a uid of a class in its category. -/
def Uid.IsLocal (uid : Value) : Prop := ∃ n, uid.whole? = some n ∧ 0 ≤ n ∧ n < 1000

namespace Draft

open Act (steady_pure steady_lift)

private theorem mentions_localUid {key : Text} {item : Fields}
    (outside : ¬Uid.IsLocal (Entries.getOr "uid" item (.int 0))) :
    (localUid key item).Mentions (.invalidUid key (Entries.getOr "uid" item (.int 0))) := by
  unfold localUid
  dsimp only
  split
  · rename_i n whole
    split
    · rename_i within
      exact absurd ⟨n, whole, within⟩ outside
    · exact (Act.mentions_complain rfl).bind fun _ => steady_pure _
  · exact (Act.mentions_complain rfl).bind fun _ => steady_pure _

private theorem mentions_addActivity {key : Text} {uid caption : Value} {types : Fields} {activity : Text × Value}
    {n : Int}
    (numeric : activity.1.parseInt? = some n) (outside : ¬(0 ≤ n ∧ n < 100)) :
    (addActivity key uid caption types activity).Mentions (.activityOutOfRange key n) := by
  unfold addActivity
  rw [numeric]
  dsimp only
  rw [if_neg outside]
  exact (Act.mentions_warn rfl).bind fun _ => steady_pure _

private theorem mentions_listTypes {key : Text} {uid caption : Value} {attributes : Fields} {activity : Text × Value}
    {n : Int}
    (member : activity ∈ ownActivities attributes) (numeric : activity.1.parseInt? = some n)
    (outside : ¬(0 ≤ n ∧ n < 100)) :
    (listTypes key uid caption attributes).Mentions (.activityOutOfRange key n) := by
  unfold ownActivities at member
  unfold listTypes
  extract_lets activities finish list
  change activity ∈ (Entries.orNull "enum" activities.inner).inner at member
  have finished (types : Fields) : (finish types).Steady :=
    (steady_lift _).bind fun _ => (steady_lift _).bind fun _ => steady_pure _
  have listed {enumeration : Value} (known : activity ∈ enumeration.inner) :
      (list enumeration).Mentions (.activityOutOfRange key n) := by
    unfold list
    rw [if_pos (Value.truthy_of_mem_inner known)]
    refine (steady_lift _).mentions_bind fun entries opened => ?_
    obtain ⟨mark, rfl⟩ := Value.inner_of_asFields (Act.yields_lift.mp opened)
    refine Act.Mentions.bind (Act.mentions_foldlM _ ?_ known fun types => mentions_addActivity numeric outside) finished
    exact fun types activity _ => steady_addActivity key uid caption types activity
  have opens : activities.inner ≠ [] := fun none => by
    rw [none] at member
    cases member
  obtain ⟨entry, inside⟩ := List.exists_mem_of_ne_nil _ opens
  rw [if_pos (Value.truthy_of_mem_inner inside)]
  refine (steady_lift _).mentions_bind fun fields opened => ?_
  obtain ⟨mark, shape⟩ := Value.inner_of_asFields (Act.yields_lift.mp opened)
  rw [shape] at member
  exact (steady_pure _).mentions_bind fun enumeration same => listed (Act.yields_pure.mp same ▸ member)

/-- The uid of a class and its category, the last that is written of its identifiers, are written steadily. -/
theorem steady_enlist (key : Text) (uid caption name categoryUid : Value) (category : Option (Value × Value))
    (item attributes : Fields) : (do
      let description := Entries.getOr "description" item (.text ∅)
      let attributes ← (listClass key uid caption description attributes : Except Fault Fields)
      match category with
      | some (_, category) =>
        let item := Entries.put "category_uid" categoryUid item
        let attributes ← (listCategory key categoryUid category attributes : Except Fault Fields)
        return Entries.put "attributes" (.record attributes) item
      | none => reportCategory key name (Entries.put "attributes" (.record attributes) item) :
      Act Fields).Steady := by
  refine (steady_lift _).bind fun _ => ?_
  cases category with
  | some known => exact (steady_lift _).bind fun _ => steady_pure _
  | none => exact steady_reportCategory key name _

/-- A class is complained of for its uid, and warned of for its activities, whatever its category is. -/
theorem mentions_identify {draft : Draft} {key : Text} {item : Fields} :
    (¬Uid.IsLocal (Entries.getOr "uid" item (.int 0)) →
      (identify draft key item).Mentions (.invalidUid key (Entries.getOr "uid" item (.int 0)))) ∧
    ∀ activity ∈ ownActivities (Entries.attributes item), ∀ n, activity.1.parseInt? = some n → ¬(0 ≤ n ∧ n < 100) →
      (identify draft key item).Mentions (.activityOutOfRange key n) := by
  -- what is read of the category is written beside the uid and the attributes
  suffices each : ∀ notice, (∀ whole : Fields, Entries.get? "uid" whole = Entries.get? "uid" item →
      (localUid key whole).Mentions notice) ∨
      (∀ uid caption, (listTypes key uid caption (Entries.attributes item)).Mentions notice) →
      (identify draft key item).Mentions notice by
    refine ⟨fun outside => each _ (.inl fun whole same => ?_),
      fun activity member n numeric outside => each _ (.inr fun uid caption =>
        mentions_listTypes member numeric outside)⟩
    have read : Entries.getOr "uid" item (.int 0) = Entries.getOr "uid" whole (.int 0) := by
      rw [Entries.getOr, Entries.getOr, same]
    rw [read] at outside ⊢
    exact mentions_localUid outside
  intro notice reported
  unfold identify
  extract_lets caption name whole
  have start : Entries.get? "uid" whole = Entries.get? "uid" item := by
    rw [Entries.get?_putNew, if_neg fun both => absurd both.1 (by decide)]
  have given : Entries.attributes whole = Entries.attributes item := attributes_putNew item
  clear_value whole
  refine (steady_lift _).mentions_bind fun category _ => ?_
  extract_lets list
  have listed (found : Fields × Value) (uid : Entries.get? "uid" found.1 = Entries.get? "uid" item)
      (same : Entries.attributes found.1 = Entries.attributes item) : (list found).Mentions notice := by
    obtain ⟨given, categoryUid⟩ := found
    unfold list
    rcases reported with local_ | listing
    · refine (local_ given uid).bind fun own => ?_
      refine (steady_lift _).bind fun outer => (steady_lift _).bind fun uid => ?_
      exact (steady_lift _).bind fun attributes =>
        (steady_listTypes key uid caption attributes).bind fun attributes => steady_enlist key uid caption name
          categoryUid category _ attributes
    · refine (steady_localUid key given).mentions_bind fun own _ => ?_
      refine (steady_lift _).mentions_bind fun outer _ => (steady_lift _).mentions_bind fun uid _ => ?_
      refine (steady_lift _).mentions_bind fun attributes read => ?_
      have here := attributes_of_ok (Act.yields_lift.mp read)
      rw [Entries.attributes_put_of_ne (by decide), same] at here
      exact (here ▸ listing uid caption).bind fun attributes => steady_enlist key uid caption name categoryUid
        category _ attributes
  clear_value list
  cases category with
  | some known =>
      refine (steady_lift _).mentions_bind fun fields _ => (steady_pure _).mentions_bind fun found same => ?_
      rw [← Act.yields_pure.mp same]
      refine listed _ ?_ ?_
      · rw [Entries.get?_put_of_ne (by decide), Entries.get?_put_of_ne (by decide), start]
      · rw [Entries.attributes_put_of_ne (by decide), Entries.attributes_put_of_ne (by decide), given]
  | none =>
      refine (steady_pure _).mentions_bind fun found same => ?_
      rw [← Act.yields_pure.mp same]
      exact listed _ start given

end Draft

/-! ### Graphs -/

theorem Graph.mentions_ofDefinitions {d : Definitions} {classes : Fields} (opened : d.classes.asFields = .ok classes)
    {key : Text} {flat : Fields} (computed : Lineage.Flat .eventClass classes key flat)
    (visible : key = "base_event" ∨ Entries.has "uid" flat = true)
    (mentions : ∀ draft : Draft, (draft.identify key flat).Mentions notice) :
    (Graph.ofDefinitions d).Mentions notice := by
  unfold Graph.ofDefinitions
  refine (Act.steady_lift _).mentions_bind fun draft _ => (Act.steady_lift _).mentions_bind fun raw read => ?_
  cases opened.symm.trans (Act.yields_lift.mp read)
  refine (Lineage.steady_flattenAll _ _).mentions_bind fun flatClasses flattened => ?_
  refine (Act.steady_lift _).mentions_bind fun _ _ => (Lineage.steady_flattenAll _ _).mentions_bind fun objects _ => ?_
  refine (Draft.steady_resolveDictionary _).mentions_bind fun resolved resolving => ?_
  have shown : (key, flat) ∈ resolved.classes := by
    obtain ⟨attributes, rfl⟩ := Draft.resolveDictionary_ok resolving
    obtain ⟨item, above, line, inherited⟩ := computed
    obtain ⟨mark, found⟩ := line.object_of_mem (List.mem_cons_self ..)
    obtain ⟨result, kept, flat'⟩ := (Lineage.flattenAll_ok flattened).get?_left found
    cases flat'.unique ⟨item, above, line, inherited⟩
    refine List.mem_filter.mpr ⟨Entries.mem_of_get? kept, ?_⟩
    rcases visible with base | numbered
    · simp [isHiddenClass, base]
    · simp [isHiddenClass, numbered]
  have identifies : resolved.identifyClasses.Mentions notice := by
    refine Act.Mentions.bind (Act.mentions_mapM ?_ shown ?_) fun _ => Act.steady_pure _
    · exact fun entry _ => (resolved.steady_identify entry.1 entry.2).bind fun _ => Act.steady_pure _
    · exact (mentions resolved).bind fun _ => Act.steady_pure _
  refine identifies.bind fun draft => draft.steady_listObservables.bind fun draft => ?_
  refine (Draft.steady_each (draft.steady_checkProfiles .eventClass)).bind fun _ => ?_
  refine (Draft.steady_each (draft.steady_checkProfiles .object)).bind fun _ => ?_
  refine draft.steady_closeAllProfiles.bind fun draft => (Act.steady_lift _).bind fun draft => ?_
  refine (Draft.steady_each (draft.steady_verify .eventClass)).bind fun _ => ?_
  refine (Draft.steady_each (draft.steady_verify .object)).bind fun _ => ?_
  exact draft.steady_requireAll.bind fun draft => (Act.steady_lift _).bind fun draft => Act.steady_lift _

/-! ### Compilations -/

theorem Settings.tells_of_mentions {s : Settings} {run after : Run} {graph : Graph} {d : Definitions}
    (compiled : (s.compile tree).outcome run = (.ok graph, after)) (defined : (s.compilation tree).definitions = .ok d)
    (mentions : (Graph.ofDefinitions d).Mentions notice) :
    ∃ told, after.notices = run.notices ++ told ∧ notice ∈ told ∧
      run.diagnostics.errors + notice.problem.errors ≤ after.diagnostics.errors ∧
      run.diagnostics.warnings + notice.problem.warnings ≤ after.diagnostics.warnings := by
  obtain ⟨announced, announcing, ⟨course⟩⟩ := exists_course compiled
  obtain ⟨steps, before, telling, building⟩ := Compilation.exists_building course.faithful course.building
  rw [steps.definitions_eq defined] at building
  obtain ⟨earlier, reported, counted⟩ := (announcing.trans course.opening).trans telling
  obtain ⟨notices, built, member⟩ := mentions _ _ _ building
  have notices_eq := course.notices
  have counts := course.counts
  rw [built] at notices_eq counts
  have least := Diagnostics.problem_le member
  simp only [Run.reporting] at notices_eq counts
  rw [reported, List.append_assoc, List.append_assoc] at notices_eq
  refine ⟨_, notices_eq, List.mem_append_right _ (List.mem_append_left _ member), ?_⟩
  rw [counts, counted]
  simp only [Diagnostics.add]
  omega

end EventSchema
