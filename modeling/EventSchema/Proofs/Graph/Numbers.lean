import EventSchema.Proofs.Graph.Closure
import EventSchema.Proofs.Graph.Steady
import EventSchema.Proofs.Graph.TypeUids
import EventSchema.Proofs.Range.Graph
import EventSchema.Proofs.Scope

/-!
What the numbers of classes and of their types of events are made of.

If categories and extensions are numbered by whole numbers, a class is numbered by its category, which its
extension scopes, and by its own number, and its types of events are numbered by the class and by its
activities. A number of its own that cannot stand is told of, and so is an activity that has none. As an
activity has two digits, classes of different numbers share no type of events.
-/

set_option autoImplicit false

namespace EventSchema

/-! ### What is told of numbers -/

/-- The notice tells of a number of a class or an activity that cannot stand. -/
def Notice.isNumberProblem : Notice → Bool
  | invalidUid _ _ | activityNotNumeric _ _ | activityOutOfRange _ _ => true
  | _ => false

private theorem Notice.topic_of_isNumberProblem {notice : Notice} (problem : notice.isNumberProblem = true) :
    notice.topic = .identity := by
  unfold isNumberProblem at problem
  split at problem
  · rfl
  · rfl
  · rfl
  · cases problem

namespace Draft

open Act (shows_pure shows_pure_bind shows_warn shows_complain shows_lift_bind shows_foldlM shows_mapEntries)

/-- What is told of the number that a class is defined with, if that is no whole one below a thousand. -/
def uidProblems (key : Text) (item : Fields) : List Notice :=
  match (Entries.getOr "uid" item (.int 0)).whole? with
  | some n => if 0 ≤ n ∧ n < 1000 then [] else [.invalidUid key (Entries.getOr "uid" item (.int 0))]
  | none => [.invalidUid key (Entries.getOr "uid" item (.int 0))]

/-- What is told of an activity by its name, if that is no number below a hundred. -/
def activityProblems (key name : Text) : List Notice :=
  match name.parseInt? with
  | none => [.activityNotNumeric key name]
  | some n => if 0 ≤ n ∧ n < 100 then [] else [.activityOutOfRange key n]

def numberProblems (key : Text) (flat : Fields) : List Notice :=
  uidProblems key flat ++
    (Entries.keys (ownActivities (Entries.attributes flat))).flatMap (activityProblems key)

private theorem uidProblems_congr {key : Text} {item other : Fields}
    (same : Entries.get? "uid" item = Entries.get? "uid" other) : uidProblems key item = uidProblems key other := by
  rw [uidProblems, uidProblems, Entries.getOr, Entries.getOr, same]

/-- A number of a class that cannot stand is an error. -/
theorem problem_uidProblems {key : Text} {item : Fields} {notice : Notice}
    (member : notice ∈ uidProblems key item) : notice.problem = { errors := 1 } := by
  unfold uidProblems at member
  split at member
  · split at member
    · cases member
    · rw [List.mem_singleton.mp member]
      rfl
  · rw [List.mem_singleton.mp member]
    rfl

private theorem problem_activityProblems {key name : Text} {notice : Notice}
    (member : notice ∈ activityProblems key name) : notice.problem = { warnings := 1 } := by
  unfold activityProblems at member
  split at member
  · rw [List.mem_singleton.mp member]
    rfl
  · split at member
    · cases member
    · rw [List.mem_singleton.mp member]
      rfl

private theorem shows_localUid (key : Text) (item : Fields) :
    (localUid key item).Shows Notice.isNumberProblem (uidProblems key item) := by
  unfold localUid uidProblems
  dsimp only
  cases (Entries.getOr "uid" item (.int 0)).whole? with
  | none => exact (shows_complain rfl rfl).before fun _ => shows_pure _
  | some n =>
      dsimp only
      by_cases short : 0 ≤ n ∧ n < 1000
      · rw [if_pos short, if_pos short]
        exact shows_pure _
      · rw [if_neg short, if_neg short]
        exact (shows_complain rfl rfl).before fun _ => shows_pure _

private theorem shows_addActivity (key : Text) (uid caption : Value) (types : Fields) (activity : Text × Value) :
    (addActivity key uid caption types activity).Shows Notice.isNumberProblem
      (activityProblems key activity.1) := by
  unfold addActivity activityProblems
  cases activity.1.parseInt? with
  | none => exact (shows_warn rfl rfl).before fun _ => shows_pure _
  | some n =>
      dsimp only
      by_cases short : 0 ≤ n ∧ n < 100
      · rw [if_pos short, if_pos short]
        exact shows_lift_bind fun _ _ => shows_lift_bind fun _ _ => shows_pure _
      · rw [if_neg short, if_neg short]
        exact (shows_warn rfl rfl).before fun _ => shows_pure _

private theorem shows_listTypes (key : Text) (uid caption : Value) (attributes : Fields) :
    (listTypes key uid caption attributes).Shows Notice.isNumberProblem
      ((Entries.keys (ownActivities attributes)).flatMap (activityProblems key)) := by
  have each (activities : Fields) : (activities.foldlM (addActivity key uid caption) []).Shows
      Notice.isNumberProblem ((Entries.keys activities).flatMap (activityProblems key)) := by
    rw [Entries.keys, List.flatMap_map]
    exact shows_foldlM activities [] fun types activity => shows_addActivity key uid caption types activity
  unfold listTypes
  extract_lets activities finish list
  have finished (types : Fields) : (finish types).Shows Notice.isNumberProblem [] :=
    shows_lift_bind fun _ _ => shows_lift_bind fun _ _ => shows_pure _
  have silent : (warn (.noActivities key)).Shows Notice.isNumberProblem [] := by
    have about : (warn (.noActivities key)).About (· = .noActivities key) := Act.about_warn rfl rfl
    exact about.shows fun _ same => same ▸ rfl
  have listed (enumeration : Value) : (list enumeration).Shows Notice.isNumberProblem
      ((Entries.keys enumeration.inner).flatMap (activityProblems key)) := by
    unfold list
    split
    · refine shows_lift_bind fun fields opened => ?_
      obtain ⟨mark, rfl⟩ := Value.inner_of_asFields opened
      exact (each fields).before finished
    · rename_i missing
      rw [Value.inner_of_falsy missing]
      exact silent.before fun _ => shows_pure_bind (finished [])
  change Act.Shows _ _
    ((Entries.keys (Entries.orNull "enum" activities.inner).inner).flatMap (activityProblems key))
  split
  · refine shows_lift_bind fun fields opened => ?_
    obtain ⟨mark, shape⟩ := Value.inner_of_asFields opened
    rw [shape]
    exact shows_pure_bind (listed _)
  · rename_i missing
    rw [Value.inner_of_falsy missing]
    exact shows_pure_bind (listed .null)

private theorem shows_reportCategory (key : Text) (name : Value) (item : Fields) :
    (reportCategory key name item).Shows Notice.isNumberProblem [] := by
  have about : (reportCategory key name item).About (·.isNumberProblem = false) :=
    about_reportCategory (by rfl) (by rfl) (by rfl) item
  exact about.shows fun _ apart => apart

/-- Identifying a class tells of its numbers, whatever its category is. -/
theorem shows_identify (draft : Draft) (key : Text) (item : Fields) :
    (draft.identify key item).Shows Notice.isNumberProblem (numberProblems key item) := by
  unfold identify
  extract_lets caption name whole
  have start : Entries.get? "uid" whole = Entries.get? "uid" item := by
    rw [Entries.get?_putNew, if_neg fun both => absurd both.1 (by decide)]
  have given : Entries.attributes whole = Entries.attributes item := attributes_putNew item
  clear_value whole
  refine shows_lift_bind fun category _ => ?_
  extract_lets list
  have listed (found : Fields × Value) (uid : Entries.get? "uid" found.1 = Entries.get? "uid" item)
      (same : Entries.attributes found.1 = Entries.attributes item) :
      (list found).Shows Notice.isNumberProblem (numberProblems key item) := by
    obtain ⟨given, categoryUid⟩ := found
    unfold list numberProblems
    rw [← uidProblems_congr uid, ← same]
    refine (shows_localUid key given).bind fun own => ?_
    refine shows_lift_bind fun outer _ => shows_lift_bind fun uid _ => shows_lift_bind fun attributes read => ?_
    have here := attributes_of_ok read
    rw [Entries.attributes_put_of_ne (by decide)] at here
    rw [here]
    refine (shows_listTypes key uid caption attributes).before fun attributes => shows_lift_bind fun _ _ => ?_
    cases category with
    | some known => exact shows_lift_bind fun _ _ => shows_pure _
    | none => exact shows_reportCategory key name _
  clear_value list
  cases category with
  | some known =>
      refine shows_lift_bind fun fields _ => shows_pure_bind (listed _ ?_ ?_)
      · rw [Entries.get?_put_of_ne (by decide), Entries.get?_put_of_ne (by decide), start]
      · rw [Entries.attributes_put_of_ne (by decide), Entries.attributes_put_of_ne (by decide), given]
  | none => exact shows_pure_bind (listed _ start given)

private theorem shows_identifyClasses (draft : Draft) : draft.identifyClasses.Shows Notice.isNumberProblem
    (draft.classes.flatMap fun entry => numberProblems entry.1 entry.2) :=
  (shows_mapEntries fun entry => draft.shows_identify entry.1 entry.2).before fun _ => shows_pure _

end Draft

private theorem Stages.filter_isNumberProblem {d : Definitions} {graph : Graph} (stages : Stages d graph)
    {notices : List Notice} (tells : (Graph.ofDefinitions d).Tells graph notices) :
    notices.filter Notice.isNumberProblem =
      stages.resolved.classes.flatMap fun entry => Draft.numberProblems entry.1 entry.2 := by
  obtain ⟨identifying, identifies, same⟩ :=
    stages.reported_identity (fun _ => Notice.topic_of_isNumberProblem) tells
  rw [same]
  exact stages.resolved.shows_identifyClasses.filter _ _ identifies

/-! ### The category that numbers a class -/

def WholeUids (categories : Fields) : Prop :=
  ∀ entry ∈ categories, ∃ n, (Entries.getOr "uid" entry.2.inner (.int 0)).whole? = some n

namespace Draft

/-- The category of a class is the one that it names, if anything is known of that. -/
theorem categoryOf_ok {draft : Draft} {item : Fields} {category : Option (Value × Value)}
    (ran : categoryOf draft item = .ok category) :
    (category = none ∧ ∀ key, ¬Scope.Means draft.categories.inner (Entries.orNull "category" item)
        (Entries.get? "extension" item) key) ∨
      ∃ key value, Scope.Means draft.categories.inner (Entries.orNull "category" item)
          (Entries.get? "extension" item) key ∧
        Entries.get? key draft.categories.inner = some value ∧
        category = if value.truthy then some (.text key, value) else none := by
  unfold categoryOf at ran
  obtain ⟨found, searched, ran⟩ := bind_eq_ok.mp ran
  cases found with
  | none =>
      refine Or.inl ⟨(pure_eq_ok.mp ran).symm, fun key means => ?_⟩
      cases shape : draft.categories with
      | object mark categories =>
          rw [shape] at searched means
          rw [Scope.findIn_object] at searched
          cases searched.symm.trans (Scope.find?_eq_some.mpr ⟨key, rfl, means⟩)
      | null | bool _ | int _ | float _ | text _ | array _ =>
          rw [shape] at means
          cases means.has
  | some name =>
      obtain ⟨categories, opened, ran⟩ := bind_eq_ok.mp ran
      obtain ⟨value, looked, ran⟩ := bind_eq_ok.mp ran
      obtain ⟨mark, shape⟩ := Value.inner_of_asFields opened
      rw [shape, Scope.findIn_object] at searched
      obtain ⟨key, rfl, means⟩ := Scope.find?_eq_some.mp searched
      obtain ⟨held, known⟩ := Option.isSome_iff_exists.mp means.has
      rw [Value.lookup?, known] at looked
      cases looked
      rw [shape]
      exact Or.inr ⟨key, held, means, known, (pure_eq_ok.mp ran).symm⟩

inductive CategoryUid (categories item : Fields) : Int → Prop
  | found {key : Text} {category : Value} {n : Int}
      (means : Scope.Means categories (Entries.orNull "category" item) (Entries.get? "extension" item) key)
      (held : Entries.get? key categories = some category)
      (whole : (Entries.getOr "uid" category.inner (.int 0)).whole? = some n) : CategoryUid categories item n
  | missing (meaningless : ∀ key, ¬Scope.Means categories (Entries.orNull "category" item)
      (Entries.get? "extension" item) key) : CategoryUid categories item 0

theorem CategoryUid.unique {categories item : Fields} {m n : Int} (first : CategoryUid categories item m)
    (second : CategoryUid categories item n) : m = n := by
  cases first with
  | found means held whole =>
      cases second with
      | found means' held' whole' =>
          obtain rfl := means.unique means'
          cases held.symm.trans held'
          exact Option.some.inj (whole.symm.trans whole')
      | missing meaningless => exact absurd means (meaningless _)
  | missing meaningless =>
      cases second with
      | found means => exact absurd means (meaningless _)
      | missing => rfl

private theorem identify_number {draft : Draft} {key : Text} {item result : Fields}
    (counted : WholeUids draft.categories.inner)
    (whole : (Entries.orNull "extension_id" item).isNull = true ∨
      ∃ n, (Entries.orNull "extension_id" item).whole? = some n)
    (ran : (identify draft key item).Yields result) :
    ∃ n, CategoryUid draft.categories.inner item n ∧ Entries.orNull "uid" result =
      .int (Uid.classScope (Entries.orNull "extension_id" item) n * 1000 + ownNumber item) := by
  obtain ⟨category, number, known, origin, composed⟩ := identify_composed whole ran
  rcases categoryOf_ok known with ⟨rfl, meaningless⟩ | ⟨name, value, means, held, rfl⟩
  · rcases origin with ⟨_, rfl, _⟩ | ⟨_, _, _, impossible, _⟩
    · exact ⟨0, .missing meaningless, composed 0 (Uid.asNumber_of_whole rfl)⟩
    · cases impossible
  · obtain ⟨n, counts⟩ := counted _ (Entries.mem_of_get? held)
    refine ⟨n, .found means held counts, composed n ?_⟩
    by_cases given : value.truthy = true
    · rw [if_pos given] at origin
      rcases origin with ⟨impossible, _⟩ | ⟨_, _, fields, same, opened, rfl, _⟩
      · cases impossible
      · cases same
        obtain ⟨mark, rfl⟩ := Value.inner_of_asFields opened
        exact Uid.asNumber_of_whole counts
    · rw [if_neg given] at origin
      rcases origin with ⟨_, rfl, _⟩ | ⟨_, _, _, impossible, _⟩
      · rw [Value.inner_of_falsy given] at counts
        exact Uid.asNumber_of_whole counts
      · cases impossible

private theorem whole_of_scopesBy {draft : Draft} {uid : Value} (counted : WholeUids draft.categories.inner)
    (scopes : draft.ScopesBy uid) : ∃ n, uid.whole? = some n := by
  obtain ⟨item, name, category, fields, known, opened, rfl⟩ := scopes
  rcases categoryOf_ok known with ⟨impossible, _⟩ | ⟨key, value, _, held, same⟩
  · cases impossible
  · obtain ⟨mark, rfl⟩ := Value.inner_of_asFields opened
    split at same
    · cases same
      exact counted _ (Entries.mem_of_get? held)
    · cases same

end Draft

/-! ### Definitions -/

private theorem Definitions.inner_of_listed {d : Definitions} {categories : Value}
    (listed : d.listed = .ok categories) :
    categories.inner = Entries.attributes d.categories.inner := by
  unfold Definitions.listed at listed
  obtain ⟨found, read, listed⟩ := bind_eq_ok.mp listed
  obtain ⟨fields, opened, read⟩ := bind_eq_ok.mp read
  obtain ⟨mark, shape⟩ := Value.inner_of_asFields opened
  rw [← pure_eq_ok.mp listed, ← pure_eq_ok.mp read, shape, Entries.attributes_eq_inner, Value.inner, Entries.orEmpty,
    Entries.getOr]
  cases Entries.get? "attributes" fields with
  | none => rfl
  | some value =>
      rw [Value.orElse, Option.getD_some]
      by_cases given : value.truthy = true
      · rw [if_pos given]
      · rw [if_neg given, Value.inner_of_falsy given]
        rfl

structure Definitions.WholeNumbers (d : Definitions) : Prop where
  categories : WholeUids (Entries.attributes d.categories.inner)
  extensions : ∀ entry ∈ d.classes.inner, (Entries.orNull "extension_id" entry.2.inner).isNull = true ∨
    ∃ n, (Entries.orNull "extension_id" entry.2.inner).whole? = some n

theorem Definitions.WholeNumbers.extension {d : Definitions} (numbers : d.WholeNumbers) (documents : d.Documents)
    {key : Text} {flat : Fields} (computed : Lineage.Flat .eventClass d.classes.inner key flat) :
    (Entries.orNull "extension_id" flat).isNull = true ∨
      ∃ n, (Entries.orNull "extension_id" flat).whole? = some n := by
  obtain ⟨item, above, line, _⟩ := id computed
  obtain ⟨mark, found⟩ := line.object_of_mem (List.mem_cons_self ..)
  have distinct : Entries.Distinct item := by
    have keyed := documents.classes
    cases shape : d.classes with
    | object own classes =>
        rw [shape] at keyed found
        exact (Value.keyed_object.mp ((Value.keyed_object.mp keyed).of_get? found)).distinct
    | null | bool _ | int _ | float _ | text _ | array _ =>
        rw [shape] at found
        cases found
  rw [Entries.orNull_congr (computed.get?_ownKey found distinct (by decide))]
  exact numbers.extensions _ (Entries.mem_of_get? found)

/-! ### Activities -/

namespace Draft

def enumerated (name : Text) (attributes : Fields) : Fields :=
  (Entries.orNull "enum" (Entries.orNull name attributes).inner).inner

/-- The activities are those of `disposition_id` just if there is no `activity_id`, unless that is there and says
nothing. -/
theorem ownActivities_eq {attributes : Fields}
    (filled : ∀ value, Entries.get? "activity_id" attributes = some value → value.truthy = true) :
    ownActivities attributes = if Entries.has "activity_id" attributes then enumerated "activity_id" attributes
      else enumerated "disposition_id" attributes := by
  unfold ownActivities enumerated Entries.has
  cases found : Entries.get? "activity_id" attributes with
  | none => rfl
  | some value =>
      rw [Value.orElse, if_pos (filled value found)]
      rw [Entries.orNull, Entries.orNull, Entries.orNull, Entries.getOr, Entries.getOr, Entries.getOr, found]
      rfl

private theorem Lists.nonneg {attributes : Fields} {n : Int} (lists : Lists attributes n) : 0 ≤ n := by
  rcases lists with rfl | ⟨low, _⟩
  · decide
  · exact low

theorem Sourced.truthy {value : Value} (sourced : Sourced value) (object : value.isObject = true) :
    value.truthy = true := by
  cases value with
  | object mark field =>
      obtain ⟨_, _, told⟩ := sourced mark field rfl
      obtain ⟨source, named, _⟩ := told trivial
      cases field with
      | nil => cases named
      | cons head rest => rfl
  | null | bool _ | int _ | float _ | text _ | array _ => cases object

end Draft

namespace Stages

variable {d : Definitions} {graph : Graph} (stages : Stages d graph)

include stages in
private theorem isObject_of_flat {key name : Text} {entity : Entity} {flat : Fields} {value : Value}
    (found : Entries.get? key graph.classes = some entity)
    (computed : Lineage.Flat .eventClass d.classes.inner key flat)
    (free : ∀ category, name ∉ Draft.identifyingNames category)
    (given : Entries.get? name (Entries.attributes flat) = some value) : value.isObject = true := by
  obtain ⟨_, item, _, _, result, _, held, passes, _⟩ := stages.passes_class found
  obtain ⟨other, identified, computed', identifying, attributes, _⟩ := stages.identified_class held
  obtain rfl : flat = other := computed.unique (stages.inner_rawClasses ▸ computed')
  obtain ⟨category, _, written⟩ := Draft.identify_writtenAt identifying
  obtain ⟨siblings, collected, treated, _⟩ := passes.steps
  have present : Entries.get? name (Entries.attributes item) = some value := by
    rw [attributes, written.beside name (free category), given]
  have kept : Entries.get? name (Draft.withSiblings (Entries.attributes item) siblings) = some value := by
    rcases collected with ⟨_, rfl⟩ | ⟨_, each⟩
    · exact present
    · exact Draft.get?_addSiblings each present
  obtain ⟨_, _, finished⟩ := treated.get?_left kept
  obtain ⟨_, _, _, _, shape, _⟩ :=
    Draft.finishAttribute_ok (fun shared known => stages.isObject_dictionary known) finished
  cases value with
  | object mark field => rfl
  | null | bool _ | int _ | float _ | text _ | array _ => cases shape

end Stages

/-! ### Graphs -/

structure Entity.Decodes (categories flat : Fields) (entity : Entity) : Prop where
  uid : ∃ category, Draft.CategoryUid categories flat category ∧
    entity.uid = .int (Uid.classScope entity.extensionId category * 1000 + Draft.ownNumber flat)
  types : ∀ uid, entity.uid = .int uid → ∀ key,
    Entries.has key (Attribute.enumOf "type_uid" entity.attributes).inner = true ↔
      ∃ activity, Draft.Lists (Entries.attributes flat) activity ∧ key = Text.ofInt (uid * 100 + activity)

/-- Classes of different uids share no type of events. -/
theorem Entity.Decodes.apart {categories flat other : Fields} {first second : Entity}
    (decodes : first.Decodes categories flat) (decodes' : second.Decodes categories other)
    (different : first.uid ≠ second.uid) {key : Text}
    (lists : Entries.has key (Attribute.enumOf "type_uid" first.attributes).inner = true) :
    Entries.has key (Attribute.enumOf "type_uid" second.attributes).inner = false := by
  obtain ⟨_, _, uid⟩ := decodes.uid
  obtain ⟨_, _, uid'⟩ := decodes'.uid
  obtain ⟨activity, listed, spelled⟩ := (decodes.types _ uid key).mp lists
  by_contra shared
  obtain ⟨activity', listed', spelled'⟩ := (decodes'.types _ uid' key).mp (Bool.not_eq_false _ ▸ shared)
  have same := Text.ofInt_inj (spelled.symm.trans spelled')
  have low := listed.nonneg
  have high := listed.short
  have low' := listed'.nonneg
  have high' := listed'.short
  refine different ?_
  rw [uid, uid']
  congr 1
  omega

/-- What the uids of a graph are made of, and what was told on the way to it. The classes are told by what they
were flattened to. -/
structure Graph.DecodesUids (d : Definitions) (flats : Entries Fields) (notices : List Notice) (graph : Graph) :
    Prop where
  classes : Entries.Related (fun key flat entity => Lineage.Flat .eventClass d.classes.inner key flat ∧
    entity.Decodes (Entries.attributes d.categories.inner) flat) flats graph.classes
  activities : AuthoredDocument d.classes.inner → ∀ entry ∈ flats, Draft.ownActivities (Entries.attributes entry.2) =
    if Entries.has "activity_id" (Entries.attributes entry.2)
    then Draft.enumerated "activity_id" (Entries.attributes entry.2)
    else Draft.enumerated "disposition_id" (Entries.attributes entry.2)
  problems : notices.filter Notice.isNumberProblem =
    flats.flatMap fun entry => Draft.numberProblems entry.1 entry.2
  errors : ∀ entry ∈ flats, ∀ notice ∈ Draft.uidProblems entry.1 entry.2, notice.problem = { errors := 1 }
  warnings : ∀ entry ∈ flats, ∀ name, ∀ notice ∈ Draft.activityProblems entry.1 name,
    notice.problem = { warnings := 1 }
  apart : ∀ first ∈ graph.classes, ∀ second ∈ graph.classes, first.2.uid ≠ second.2.uid → ∀ key,
    Entries.has key (Attribute.enumOf "type_uid" first.2.attributes).inner = true →
      Entries.has key (Attribute.enumOf "type_uid" second.2.attributes).inner = false

namespace Stages

variable {d : Definitions} {graph : Graph} (stages : Stages d graph)

/-- The categories that classes are found in are those of the definitions. -/
theorem inner_categories : stages.resolved.categories.inner = Entries.attributes d.categories.inner := by
  rw [stages.categories_eq.1]
  exact Definitions.inner_of_listed (Draft.ofDefinitions_ok stages.starting).1

private theorem flat_of_resolved_class {key : Text} {flat : Fields} (member : (key, flat) ∈ stages.resolved.classes) :
    Lineage.Flat .eventClass d.classes.inner key flat := by
  obtain ⟨_, _, computed⟩ := (Lineage.flattenAll_ok stages.flattenClasses).mem_right (stages.mem_flatClasses member)
  exact stages.inner_rawClasses ▸ computed

include stages in
private theorem types_of_class (documents : d.Documents)
    (unlisted : (Attribute.enumOf "type_uid" graph.dictionary.attributes).inner = []) {key : Text} {entity : Entity}
    {flat : Fields} (found : Entries.get? key graph.classes = some entity)
    (computed : Lineage.Flat .eventClass d.classes.inner key flat) {uid : Int} (whole : entity.uid = .int uid)
    (name : Text) : Entries.has name (Attribute.enumOf "type_uid" entity.attributes).inner = true ↔
      ∃ activity, Draft.Lists (Entries.attributes flat) activity ∧ name = Text.ofInt (uid * 100 + activity) := by
  obtain ⟨other, computed', lists⟩ := stages.listsTypes documents found
  obtain rfl : flat = other := computed.unique computed'
  rw [lists.keys, unlisted, whole]
  constructor
  · rintro (impossible | ⟨activity, id, listed, numbered, rfl⟩)
    · cases impossible
    · rw [Uid.activity_int listed.short] at numbered
      cases numbered
      exact ⟨activity, listed, rfl⟩
  · rintro ⟨activity, listed, rfl⟩
    exact Or.inr ⟨activity, _, listed, Uid.activity_int listed.short, rfl⟩

private theorem decodes_classes (documents : d.Documents) (numbers : d.WholeNumbers)
    (unlisted : (Attribute.enumOf "type_uid" graph.dictionary.attributes).inner = []) :
    Entries.Related (fun key flat entity => Lineage.Flat .eventClass d.classes.inner key flat ∧
      Entries.get? key graph.classes = some entity ∧
      entity.Decodes (Entries.attributes d.categories.inner) flat) stages.resolved.classes graph.classes := by
  have distinct := stages.distinct_classes (documents.classes.asFields stages.readClasses).distinct
  have flattened := stages.related_classes.imp_mem fun _ _ _ member related =>
    And.intro (stages.flat_of_resolved_class member) related
  refine Entries.Related.flip (flattened.flip.imp_mem ?_)
  rintro key entity flat member ⟨computed, identified, result, ran, same, reads⟩
  have found := Entries.get?_of_mem distinct member
  have counted : WholeUids stages.resolved.categories.inner := stages.inner_categories ▸ numbers.categories
  obtain ⟨category, named, uid⟩ := Draft.identify_number counted (numbers.extension documents computed) ran
  obtain ⟨numbered, _, extension⟩ := Draft.read_identified ran same reads
  rw [stages.inner_categories] at named
  rw [← numbered, ← extension] at uid
  exact ⟨computed, found, ⟨category, named, uid⟩, fun _ whole =>
    stages.types_of_class documents unlisted found computed whole⟩

include stages in
private theorem activities_of_class (authored : AuthoredDocument d.classes.inner) {key : Text} {entity : Entity}
    {flat : Fields} (found : Entries.get? key graph.classes = some entity)
    (computed : Lineage.Flat .eventClass d.classes.inner key flat) :
    Draft.ownActivities (Entries.attributes flat) = if Entries.has "activity_id" (Entries.attributes flat)
      then Draft.enumerated "activity_id" (Entries.attributes flat)
      else Draft.enumerated "disposition_id" (Entries.attributes flat) := by
  refine Draft.ownActivities_eq fun value given => ?_
  have sourced := (Lineage.hereditary_sourced authored).flat computed _ (Entries.mem_of_get? given)
  refine sourced.truthy (stages.isObject_of_flat found computed (fun category => ?_) given)
  unfold Draft.identifyingNames
  split <;> decide

end Stages

/-- Uids of classes and of types of events decode, and no identifier is out of its range on the way to them. What
cannot stand as a number is told of instead. -/
theorem Graph.uids_decode {d : Definitions} (documents : d.Documents) (numbers : d.WholeNumbers) :
    (∀ run fault, ((Graph.ofDefinitions d).outcome run).1 ≠ .error (.range fault)) ∧
    ∀ run graph after, (Graph.ofDefinitions d).outcome run = (.ok graph, after) →
      (Attribute.enumOf "type_uid" graph.dictionary.attributes).inner = [] →
      ∃ flats notices, after = run.reporting notices ∧ graph.DecodesUids d flats notices := by
  constructor
  · intro run fault ended
    have inRange : InRange (fun _ => False) ((Graph.ofDefinitions d).outcome run).1 := by
      refine Graph.inRange_of_scopes (fun draft started uid scopes notANumber => ?_) run
      have counted : WholeUids draft.categories.inner :=
        Definitions.inner_of_listed (Draft.ofDefinitions_ok started).1 ▸ numbers.categories
      obtain ⟨n, whole⟩ := Draft.whole_of_scopesBy counted scopes
      cases uid with
      | float x => cases whole
      | null | bool _ | int _ | text _ | array _ | object _ _ => cases notANumber
    exact inRange fault ended
  · intro run graph after built unlisted
    obtain ⟨notices, rfl, tells⟩ := (Graph.steady_ofDefinitions d).told built
    obtain ⟨stages⟩ := exists_stages tells.yields
    have decodes := stages.decodes_classes documents numbers unlisted
    refine ⟨stages.resolved.classes, notices, rfl, ?_, ?_, stages.filter_isNumberProblem tells, ?_, ?_, ?_⟩
    · exact decodes.imp fun _ _ _ each => ⟨each.1, each.2.2⟩
    · intro authored entry member
      obtain ⟨entity, _, computed, found, _⟩ := decodes.flip.mem_right member
      exact stages.activities_of_class authored found computed
    · exact fun entry _ notice => Draft.problem_uidProblems
    · exact fun entry _ name notice => Draft.problem_activityProblems
    · intro first member second member' different key lists
      obtain ⟨_, _, _, _, own⟩ := decodes.mem_right member
      obtain ⟨_, _, _, _, others⟩ := decodes.mem_right member'
      exact own.apart others different lists

namespace Graph

/-- A base event, and a class of an extension in a category of the base schema, with activities of which one has
no number. -/
def scopedDefinitions : Definitions where
  version := .text "1.0.0"
  categories := .record [("attributes", .record [("network", .record [("uid", .int 4)])])]
  dictionary := .record [
    ("attributes", .record [
      ("activity_id", .record [("type", .text "integer_t")]), ("type_uid", .record [("type", .text "integer_t")])]),
    ("types", .record [("attributes", .record [("integer_t", .record [])])])]
  classes := .record [
    ("base_event", .record []),
    ("corp/login", .record [("extension", .text "corp"), ("extension_id", .int 7), ("category", .text "network"),
      ("uid", .int 2), ("attributes", .record [("activity_id", .record [("enum", .record [
        ("1", .record [("caption", .text "Open")]), ("other", .record [])])])])])]
  objects := .record []
  profiles := .record []
  extensions := []

private theorem documents_scoped : scopedDefinitions.Documents :=
  Definitions.documents_of_written (by decide) (by decide) (by decide) (by decide) (by decide)

private theorem wholeNumbers_scoped : scopedDefinitions.WholeNumbers where
  categories := by
    intro entry member
    rw [List.mem_singleton.mp member]
    exact ⟨4, rfl⟩
  extensions := by
    intro entry member
    rcases List.mem_cons.mp member with rfl | member
    · exact Or.inl rfl
    · rw [List.mem_singleton.mp member]
      exact Or.inr ⟨7, rfl⟩

/-- The definitions come to a graph whose dictionary lists no types of events, so its uids decode. -/
theorem uids_decode_scoped : ∃ graph after, scopedDefinitions.Documents ∧ scopedDefinitions.WholeNumbers ∧
    (ofDefinitions scopedDefinitions).outcome {} = (.ok graph, after) ∧
    (Attribute.enumOf "type_uid" graph.dictionary.attributes).inner = [] ∧
    ∃ flats notices, after = Run.reporting notices {} ∧ graph.DecodesUids scopedDefinitions flats notices := by
  have evaluated : ((ofDefinitions scopedDefinitions).outcome {}).1.toOption.map
      (fun graph => (Attribute.enumOf "type_uid" graph.dictionary.attributes).inner) = some [] := by
    decide +kernel
  cases built : (ofDefinitions scopedDefinitions).outcome {} with
  | mk outcome after =>
      rw [built] at evaluated
      cases outcome with
      | error fault => cases evaluated
      | ok graph =>
          have unlisted := Option.some.inj evaluated
          exact ⟨graph, after, documents_scoped, wholeNumbers_scoped, rfl, unlisted,
            (uids_decode documents_scoped wholeNumbers_scoped).2 {} graph after built unlisted⟩

end Graph

end EventSchema
