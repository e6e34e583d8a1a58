import EventSchema.Proofs.Draft.Parted
import EventSchema.Proofs.Graph.Stages

/-!
Graphs with the items of a scope and without them.

Definitions may be cut down to what lies outside a scope. If nothing that is left refers to the scope
and the items of the scope mark nothing as observable, then the graph of what is left is the graph of
all definitions, cut down in the same way: the items of the scope extend the schema conservatively.
-/

set_option autoImplicit false

namespace EventSchema

open Value

variable {scope : Text}

namespace Draft

variable {full part full' part' : Draft}

/-! ### Hidden items and observables -/

private theorem hideItems_outside (without : Without scope full part) :
    Without scope full.hideItems part.hideItems where
  categories := without.categories
  profiles := without.profiles
  attributes := without.attributes
  types := without.types
  observables := without.observables
  classes := by
    unfold hideItems
    dsimp only
    rw [without.classes, ← Entries.outside_filter]
  objects := by
    unfold hideItems
    dsimp only
    rw [without.objects, ← Entries.outside_filter]
  allClasses := by
    unfold hideItems
    dsimp only
    rw [without.classes]
    exact (Entries.outside_map _ full.classes).symm
  allObjects := by
    unfold hideItems
    dsimp only
    rw [without.objects]
    exact (Entries.outside_map _ full.objects).symm

private theorem listing_clear {observables : List Observable} (captions : ClearCaptions scope observables)
    {object attributes ids : Fields} {enumeration : Value} (clear : ClearFields scope object)
    (read : (Entries.orEmpty "attributes" object).asFields = .ok attributes)
    (readIds : (Entries.orEmpty "type_id" attributes).asFields = .ok ids)
    (listed : enumerate observables (Entries.orEmpty "enum" ids) = .ok enumeration) :
    ClearFields scope (Entries.put "attributes" (.record
      (Value.putShared "type_id" (.record (Entries.put "enum" enumeration ids)) attributes)) object) := by
  have inside : ClearFields scope attributes := (clear.orEmpty_clear "attributes").asFields read
  have within : ClearFields scope ids := (inside.orEmpty_clear "type_id").asFields readIds
  have enumerated := enumerate_clear captions (within.orEmpty_clear "enum") listed
  have written : ClearFields scope (Entries.put "enum" enumeration ids) :=
    within.put (clearField_of_key (by decide) _) enumerated
  exact clear.put_record "attributes"
    (inside.putShared (clearField_of_object rfl) (clear_record.mpr written))

private theorem listObservables_outside (proper : Scope.Proper scope) (without : Without scope full part)
    (dictionary : ClearAttributes scope part.attributes)
    (captions : ClearCaptions scope part.observables)
    (clear : ∀ entry ∈ part.objects, ClearFields scope entry.2)
    (guardedClasses : ∀ entry ∈ part.classes, Guarded scope entry.2)
    (guardedProfiles : ∀ profiles, part.profiles.asFields = .ok profiles → ∀ entry ∈ profiles,
      ∀ item, entry.2.asFields = .ok item → Guarded scope item)
    (whole : full.listObservables.Yields full') (rest : part.listObservables.Yields part') :
    Parted scope full' part' := by
  have free : Scope.owns scope "observable" = false := Scope.owns_of_plain _ (by decide)
  have same : Entries.get? "observable" part.objects = Entries.get? "observable" full.objects := by
    rw [without.objects, Entries.get?_outside full.objects free]
  have guardedObjects : ∀ entry ∈ part.objects, Guarded scope entry.2 :=
    fun entry member => guarded_of_clear proper (clear entry member)
  have parted : Parted scope full part :=
    { without with dictionary, guardedClasses, guardedObjects, guardedProfiles }
  rcases listObservables_ok whole with ⟨absent, rfl⟩ |
    ⟨object, attributes, ids, enumeration, found, read, readIds, listed, rfl⟩
  · rcases listObservables_ok rest with ⟨_, rfl⟩ | ⟨_, _, _, _, found, _⟩
    · exact parted
    · cases absent.symm.trans (same.symm.trans found)
  · rcases listObservables_ok rest with ⟨absent, _⟩ |
      ⟨other, attributes', ids', enumeration', found', read', readIds', listed', rfl⟩
    · cases absent.symm.trans (same.trans found)
    · cases found.symm.trans (same.symm.trans found')
      cases read.symm.trans read'
      cases readIds.symm.trans readIds'
      rw [← without.observables] at listed
      cases listed.symm.trans listed'
      refine { parted with objects := ?_, guardedObjects := ?_ }
      · rw [Entries.outside_put free, without.objects]
      · intro entry member
        rcases Entries.mem_of_mem_put member with added | before
        · have own := clear _ (Entries.mem_of_get? found')
          exact added ▸ guarded_of_clear proper (listing_clear captions own read readIds listed)
        · exact guardedObjects entry before

/-! ### The final form -/

private theorem finishAttribute_outside (proper : Scope.Proper scope) (parted : Parted scope full part)
    {item : Fields} (guarded : Guarded scope item) (name : Text) {value : Value}
    (clear : ClearAttribute scope value) :
    part.finishAttribute item name value = full.finishAttribute item name value := by
  unfold finishAttribute
  rw [parted.attributes, parted.objects]
  cases shape : value with
  | object mark field =>
      have surface := clear mark field shape
      have named : Scope.NameOutside scope (Entries.orNull "object_type" field) :=
        surface.name (by decide)
      simp only [asFields, ok_bind]
      split
      · cases owned : extensionOf field item with
        | error fault => rfl
        | ok owner =>
            have outside := extensionOf_outside proper surface guarded.owner owned
            have asked : ∀ given, some owner = some given → Scope.OwnerOutside scope given :=
              fun given same => Option.some.inj same ▸ outside
            simp only [ok_bind]
            rw [Scope.find?_outside proper.plain full.objects named asked]
            cases found : Scope.find? full.objects (Entries.orNull "object_type" field)
                (some owner) with
            | error fault => rfl
            | ok key? =>
                cases key? with
                | none => rfl
                | some key =>
                    have free := Scope.nameOutside_of_findBy proper.plain named asked found
                    simp only [ok_bind, refer_outside free]
      · rfl
  | null | bool _ | int _ | float _ | text _ | array _ => rfl

private theorem finishItem_outside (proper : Scope.Proper scope) (parted : Parted scope full part)
    {item : Fields} (guarded : Guarded scope item) :
    part.finishItem item = full.finishItem item := by
  unfold finishItem
  cases read : attributesOf item with
  | error fault => rfl
  | ok attributes =>
      have clear : ClearAttributes scope attributes :=
        attributes_of_ok read ▸ guarded.attributes
      rw [ok_bind, ok_bind]
      refine congrArg (· >>= fun finished => pure (Entries.put "attributes" (.record finished) item))
        (mapM_congr fun entry member => ?_)
      rw [finishAttribute_outside proper parted guarded entry.1 (clear entry member)]

theorem finish_profiles {draft finished : Draft} (ran : draft.finish = .ok finished) :
    ∃ named profiles, draft.profiles.asFields = .ok named ∧
      finished.profiles = .record (Entries.mapValues Value.record profiles) ∧
      Entries.Related (fun _ value result => ∃ item, value.asFields = .ok item ∧
        draft.finishItem item = .ok result) named profiles := by
  unfold finish at ran
  obtain ⟨classes, _, ran⟩ := bind_eq_ok.mp ran
  obtain ⟨objects, _, ran⟩ := bind_eq_ok.mp ran
  obtain ⟨items, opened, ran⟩ := bind_eq_ok.mp ran
  obtain ⟨profiles, each, ran⟩ := bind_eq_ok.mp ran
  unfold profileItems at opened
  obtain ⟨named, opened, inside⟩ := bind_eq_ok.mp opened
  refine ⟨named, profiles, opened, by rw [← pure_eq_ok.mp ran], ?_⟩
  exact (Entries.mapM_eq_ok.mp inside).trans (Entries.mapM_eq_ok.mp each)

private theorem finish_outside (proper : Scope.Proper scope) (parted : Parted scope full part)
    (whole : full.finish = .ok full') (rest : part.finish = .ok part') :
    Without scope full' part' := by
  obtain ⟨named, profiles, opened, read, inProfiles⟩ := finish_profiles whole
  obtain ⟨named', profiles', opened', read', inProfiles'⟩ := finish_profiles rest
  obtain ⟨_, classes, objects, same, inClasses, inObjects⟩ := finish_ok whole
  obtain ⟨_, classes', objects', same', inClasses', inObjects'⟩ := finish_ok rest
  have agree {item left right : Fields} (guarded : Guarded scope item)
      (one : full.finishItem item = .ok left) (two : part.finishItem item = .ok right) :
      left = right := by
    rw [finishItem_outside proper parted guarded, one] at two
    exact Except.ok.inj two
  have parts : named' = Entries.outside scope named :=
    outside_of_asFields parted.profiles opened opened'
  have guardedProfiles := parted.guardedProfiles named' opened'
  have profilesOutside : profiles' = Entries.outside scope profiles := by
    refine inProfiles.outside (parts ▸ inProfiles') ?_
    rintro entry member free left right ⟨item, inside, one⟩ ⟨item', inside', two⟩
    rw [inside, Except.ok.injEq] at inside'
    subst inside'
    have known := parts ▸ Entries.mem_outside.mpr ⟨member, free⟩
    exact agree (guardedProfiles entry known item inside) one two
  have guardedClasses := parted.guardedClasses
  have guardedObjects := parted.guardedObjects
  rw [parted.classes] at inClasses' guardedClasses
  rw [parted.objects] at inObjects' guardedObjects
  subst same same'
  exact {
    categories := parted.categories, attributes := parted.attributes, types := parted.types
    observables := parted.observables, allClasses := parted.allClasses
    allObjects := parted.allObjects
    profiles := by
      rw [read, read', profilesOutside]
      exact congrArg Value.record (Entries.outside_map (fun entry => Value.record entry.2) _).symm
    classes := inClasses.outside inClasses' fun entry member free _ _ =>
      agree (guardedClasses entry (Entries.mem_outside.mpr ⟨member, free⟩))
    objects := inObjects.outside inObjects' fun entry member free _ _ =>
      agree (guardedObjects entry (Entries.mem_outside.mpr ⟨member, free⟩)) }

end Draft

/-! ### The graph -/

namespace Graph

structure Without (scope : Text) (full part : Graph) : Prop where
  categories : part.categories = Entries.outside scope full.categories
  attributes : part.dictionary.attributes = full.dictionary.attributes
  types : part.dictionary.types = full.dictionary.types
  classes : part.classes = Entries.outside scope full.classes
  objects : part.objects = Entries.outside scope full.objects
  profiles : part.profiles = Entries.outside scope full.profiles
  allClasses : part.allClasses = Entries.outside scope full.allClasses
  allObjects : part.allObjects = Entries.outside scope full.allObjects

/-- What a graph takes over from the draft beside the items and the references. -/
theorem of_draft {draft : Draft} {graph : Graph} (ran : draft.graph = .ok graph) :
    graph.dictionary.attributes = Attribute.ofValues draft.attributes ∧
      graph.dictionary.types = Attribute.ofValues draft.types ∧
      graph.allClasses = draft.allClasses ∧ graph.allObjects = draft.allObjects ∧
      (∃ categories, draft.categories.asFields = .ok categories ∧
        Entries.Related (fun key value category => Category.ofValue key value = .ok category)
          categories graph.categories) ∧
      ∃ profiles, draft.profiles.asFields = .ok profiles ∧
        Entries.Related (fun key value profile => Profile.ofValue key value = .ok profile)
          profiles graph.profiles := by
  unfold Draft.graph at ran
  obtain ⟨_, _, ran⟩ := bind_eq_ok.mp ran
  obtain ⟨_, _, ran⟩ := bind_eq_ok.mp ran
  obtain ⟨_, _, ran⟩ := bind_eq_ok.mp ran
  obtain ⟨categories, opened, ran⟩ := bind_eq_ok.mp ran
  obtain ⟨_, inCategories, ran⟩ := bind_eq_ok.mp ran
  obtain ⟨profiles, opened', ran⟩ := bind_eq_ok.mp ran
  obtain ⟨_, inProfiles, ran⟩ := bind_eq_ok.mp ran
  rw [pure_eq_ok] at ran
  subst ran
  exact ⟨rfl, rfl, rfl, rfl, ⟨categories, opened, Entries.mapM_eq_ok.mp inCategories⟩,
    profiles, opened', Entries.mapM_eq_ok.mp inProfiles⟩

private theorem graph_outside {full part : Draft} {graph other : Graph}
    (without : Draft.Without scope full part) (whole : full.graph = .ok graph)
    (rest : part.graph = .ok other) : Without scope graph other := by
  obtain ⟨_, inClasses, inObjects⟩ := Draft.graph_ok whole
  obtain ⟨_, inClasses', inObjects'⟩ := Draft.graph_ok rest
  obtain ⟨attributes, types, allClasses, allObjects, ⟨categories, opened, inCategories⟩,
    profiles, openedProfiles, inProfiles⟩ := of_draft whole
  obtain ⟨attributes', types', allClasses', allObjects', ⟨categories', opened', inCategories'⟩,
    profiles', openedProfiles', inProfiles'⟩ := of_draft rest
  have agree {α : Type} {read : Except Fault α} {left right : α} (one : read = .ok left)
      (two : read = .ok right) : left = right := by
    rw [one] at two
    exact Except.ok.inj two
  rw [Draft.outside_of_asFields without.categories opened opened'] at inCategories'
  rw [Draft.outside_of_asFields without.profiles openedProfiles openedProfiles'] at inProfiles'
  rw [without.classes] at inClasses'
  rw [without.objects] at inObjects'
  exact {
    categories := inCategories.outside inCategories' fun _ _ _ _ _ => agree
    attributes := by rw [attributes, attributes', without.attributes]
    types := by rw [types, types', without.types]
    classes := inClasses.outside inClasses' fun _ _ _ _ _ => agree
    objects := inObjects.outside inObjects' fun _ _ _ _ _ => agree
    profiles := inProfiles.outside inProfiles' fun _ _ _ _ _ => agree
    allClasses := by rw [allClasses, allClasses', without.allClasses]
    allObjects := by rw [allObjects, allObjects', without.allObjects] }

end Graph

/-! ### Definitions -/

/-- The categories that a draft starts with. -/
def Definitions.listed (d : Definitions) : Except Fault Value := do
  return Value.orElse (← d.categories.field? "attributes") (.record [])

/-- The attributes and types that a draft starts with. -/
def Definitions.shared (d : Definitions) : Except Fault (Fields × Fields) := do
  let (fields, attributes) ← d.dictionaryFields
  let types ← (Entries.orEmpty "types" fields).asFields
  return (attributes, ← (Entries.orEmpty "attributes" types).asFields)

theorem Definitions.exists_of_shared {d : Definitions} {attributes types : Fields}
    (shared : d.shared = .ok (attributes, types)) :
    ∃ mark own fields outer, d.dictionary = .object mark fields ∧
      Entries.get? "attributes" fields = some (.object own attributes) ∧
      (Entries.orEmpty "types" fields).asFields = .ok outer ∧
      (Entries.orEmpty "attributes" outer).asFields = .ok types := by
  unfold Definitions.shared at shared
  obtain ⟨⟨fields, inner⟩, opened, shared⟩ := bind_eq_ok.mp shared
  obtain ⟨outer, readOuter, shared⟩ := bind_eq_ok.mp shared
  obtain ⟨inside, readTypes, shared⟩ := bind_eq_ok.mp shared
  cases pure_eq_ok.mp shared
  unfold dictionaryFields at opened
  split at opened
  · rename_i mark dictionary shape
    split at opened
    · rename_i known
      cases opened
      exact ⟨mark, _, fields, outer, shape, known, readOuter, readTypes⟩
    · cases opened
  · cases opened

structure Definitions.Parted (scope : Text) (full part : Definitions) : Prop where
  categories : ∀ left right, full.listed = .ok left → part.listed = .ok right →
    right = left.outside scope
  dictionary : ∀ left right, full.shared = .ok left → part.shared = .ok right → right = left
  classes : part.classes = full.classes.outside scope
  objects : part.objects = full.objects.outside scope
  profiles : part.profiles = full.profiles.outside scope
  clearDictionary : ∀ attributes types, part.shared = .ok (attributes, types) →
    ClearFields scope attributes ∧ ClearFields scope types
  clearClasses : ∀ items, full.classes.asFields = .ok items → Lineage.ClearItems scope items
  clearObjects : ∀ items, full.objects.asFields = .ok items → Lineage.ClearItems scope items
  clearProfiles : ∀ items, full.profiles.asFields = .ok items → Lineage.ClearItems scope items
  unmarkedClasses : ∀ items, full.classes.asFields = .ok items → ∀ entry ∈ items,
    Scope.owns scope entry.1 = true → ∃ mark item, entry.2 = .object mark item ∧ Draft.Unmarked item
  unmarkedObjects : ∀ items, full.objects.asFields = .ok items → ∀ entry ∈ items,
    Scope.owns scope entry.1 = true → ∃ mark item, entry.2 = .object mark item ∧ Draft.Unmarked item

namespace Draft

theorem ofDefinitions_ok {d : Definitions} {draft : Draft} (ran : ofDefinitions d = .ok draft) :
    d.listed = .ok draft.categories ∧ d.shared = .ok (draft.attributes, draft.types) ∧
      d.observables draft.types draft.attributes = .ok draft.observables ∧
      draft.profiles = d.profiles ∧ draft.allClasses = [] ∧ draft.allObjects = [] := by
  unfold ofDefinitions at ran
  obtain ⟨found, read, ran⟩ := bind_eq_ok.mp ran
  obtain ⟨⟨fields, attributes⟩, opened, ran⟩ := bind_eq_ok.mp ran
  obtain ⟨based, asked, ran⟩ := bind_eq_ok.mp ran
  dsimp only at ran
  split at ran
  · cases ran
  · obtain ⟨outer, readOuter, ran⟩ := bind_eq_ok.mp ran
    obtain ⟨types, readTypes, ran⟩ := bind_eq_ok.mp ran
    obtain ⟨observables, collected, ran⟩ := bind_eq_ok.mp ran
    rw [← pure_eq_ok.mp ran]
    refine ⟨bind_eq_ok.mpr ⟨found, read, rfl⟩, ?_, collected, rfl, rfl, rfl⟩
    exact bind_eq_ok.mpr ⟨_, opened, bind_eq_ok.mpr ⟨outer, readOuter,
      bind_eq_ok.mpr ⟨types, readTypes, rfl⟩⟩⟩

end Draft

namespace Definitions

variable {full part : Definitions}

private theorem observables_outside (proper : Scope.Proper scope) (parted : Parted scope full part)
    {types attributes : Fields} {listed : List Observable}
    (ran : full.observables types attributes = .ok listed) :
    part.observables types attributes = .ok listed := by
  unfold observables at ran ⊢
  obtain ⟨inTypes, first, ran⟩ := bind_eq_ok.mp ran
  obtain ⟨inAttributes, second, ran⟩ := bind_eq_ok.mp ran
  obtain ⟨inClasses, third, last⟩ := bind_eq_ok.mp ran
  have step {kind : ItemKind} {known after : List Observable} {items : Value}
      (clear : ∀ fields, items.asFields = .ok fields → Lineage.ClearItems scope fields)
      (unmarked : ∀ fields, items.asFields = .ok fields → ∀ entry ∈ fields,
        Scope.owns scope entry.1 = true →
          ∃ mark item, entry.2 = .object mark item ∧ Draft.Unmarked item)
      (ran : Draft.observablesOfItems kind known items = .ok after) :
      Draft.observablesOfItems kind known (items.outside scope) = .ok after := by
    cases items with
    | object mark fields =>
        exact Draft.observablesOfItems_outside proper (clear fields rfl) (unmarked fields rfl) ran
    | null | bool _ | int _ | float _ | text _ | array _ => exact ran
  rw [parted.classes, parted.objects]
  exact bind_eq_ok.mpr ⟨inTypes, first, bind_eq_ok.mpr ⟨inAttributes, second,
    bind_eq_ok.mpr ⟨inClasses, step parted.clearClasses parted.unmarkedClasses third,
      step parted.clearObjects parted.unmarkedObjects last⟩⟩⟩

/-- The captions of the observables come from the dictionary and the items outside the scope. -/
theorem observables_clear (parted : Parted scope full part) {types attributes : Fields}
    {listed : List Observable} (clearTypes : ClearFields scope types)
    (clearAttributes : ClearFields scope attributes)
    (ran : part.observables types attributes = .ok listed) : Draft.ClearCaptions scope listed := by
  unfold observables at ran
  obtain ⟨inTypes, first, ran⟩ := bind_eq_ok.mp ran
  obtain ⟨inAttributes, second, ran⟩ := bind_eq_ok.mp ran
  obtain ⟨inClasses, third, last⟩ := bind_eq_ok.mp ran
  have step {kind : ItemKind} {known after : List Observable} {items : Value}
      (before : Draft.ClearCaptions scope known)
      (clear : ∀ fields, items.asFields = .ok fields → Lineage.ClearItems scope fields)
      (ran : Draft.observablesOfItems kind known (items.outside scope) = .ok after) :
      Draft.ClearCaptions scope after := by
    cases items with
    | object mark fields =>
        refine Draft.observablesOfItems_clear before (fun entry member => ?_) ran
        obtain ⟨known, free⟩ := Entries.mem_outside.mp member
        exact clear fields rfl entry known free
    | null | bool _ | int _ | float _ | text _ | array _ => cases ran
  rw [parted.classes] at third
  rw [parted.objects] at last
  have none? : Draft.ClearCaptions scope [] := fun o impossible => by cases impossible
  exact step (step (Draft.observablesOfDictionary_clear
    (Draft.observablesOfDictionary_clear none? clearTypes first) clearAttributes second)
      parted.clearClasses third) parted.clearObjects last

theorem Parted.guardedProfiles (proper : Scope.Proper scope) (parted : Parted scope full part)
    (items : Fields) (opened : part.profiles.asFields = .ok items) (entry : Text × Value)
    (member : entry ∈ items) (item : Fields) (inside : entry.2.asFields = .ok item) :
    Draft.Guarded scope item := by
  cases shape : full.profiles with
  | object mark fields =>
      have read : full.profiles.asFields = .ok fields := by rw [shape]; rfl
      rw [Draft.outside_of_asFields parted.profiles read opened] at member
      obtain ⟨known, free⟩ := Entries.mem_outside.mp member
      exact Draft.guarded_of_clear proper
        ((parted.clearProfiles fields read entry known free).asFields inside)
  | null | bool _ | int _ | float _ | text _ | array _ =>
      rw [parted.profiles, shape] at opened
      cases opened

end Definitions

/-- The items of a scope extend a schema conservatively. -/
theorem Graph.ofDefinitions_outside (proper : Scope.Proper scope) {full part : Definitions}
    (parted : full.Parted scope part) {graph other : Graph}
    (whole : (ofDefinitions full).Yields graph) (rest : (ofDefinitions part).Yields other) :
    Without scope graph other := by
  obtain ⟨stages⟩ := exists_stages whole
  obtain ⟨stages'⟩ := exists_stages rest
  obtain ⟨categories, shared, observables, profiles, allClasses, allObjects⟩ :=
    Draft.ofDefinitions_ok stages.starting
  obtain ⟨categories', shared', observables', profiles', allClasses', allObjects'⟩ :=
    Draft.ofDefinitions_ok stages'.starting
  have sameShared := parted.dictionary _ _ shared shared'
  rw [Prod.mk.injEq] at sameShared
  have sameObservables := Definitions.observables_outside proper parted observables
  rw [← sameShared.1, ← sameShared.2, observables', Except.ok.injEq] at sameObservables
  obtain ⟨clearAttributes, clearTypes⟩ := parted.clearDictionary _ _ shared'
  have captions := Definitions.observables_clear parted clearTypes clearAttributes observables'
  have rawClasses : stages'.rawClasses = Entries.outside scope stages.rawClasses :=
    Draft.outside_of_asFields parted.classes stages.readClasses stages'.readClasses
  have rawObjects : stages'.rawObjects = Entries.outside scope stages.rawObjects :=
    Draft.outside_of_asFields parted.objects stages.readObjects stages'.readObjects
  obtain ⟨flatClasses, clearClasses⟩ := Lineage.flattenAll_outside proper
    (parted.clearClasses _ stages.readClasses) stages.flattenClasses
    (rawClasses ▸ stages'.flattenClasses)
  obtain ⟨flatObjects, clearObjects⟩ := Lineage.flattenAll_outside proper
    (parted.clearObjects _ stages.readObjects) stages.flattenObjects
    (rawObjects ▸ stages'.flattenObjects)
  have guardedProfiles := parted.guardedProfiles proper
  rw [← profiles'] at guardedProfiles
  have start : Draft.Without scope
      { stages.start with classes := stages.flatClasses, objects := stages.flatObjects }
      { stages'.start with classes := stages'.flatClasses, objects := stages'.flatObjects } := {
    categories := parted.categories _ _ categories categories'
    profiles := by rw [profiles, profiles', parted.profiles]
    attributes := sameShared.1
    types := sameShared.2
    classes := flatClasses
    objects := flatObjects
    observables := sameObservables
    allClasses := by rw [allClasses, allClasses']; rfl
    allObjects := by rw [allObjects, allObjects']; rfl }
  have hidden := Draft.hideItems_outside start
  obtain ⟨resolved, dictionary⟩ := Draft.resolveDictionary_outside proper hidden
    (Draft.clearAttributes_of_clear clearAttributes) stages.resolving stages'.resolving
  obtain ⟨attributes, resolvedShape⟩ := Draft.resolveDictionary_ok stages'.resolving
  obtain ⟨identified, guardedClasses⟩ := Draft.identifyClasses_outside proper resolved (by
    rw [resolvedShape]
    exact fun entry member => clearClasses entry (List.mem_of_mem_filter member))
    stages.identifying stages'.identifying
  obtain ⟨classes, identifiedShape, _⟩ := Draft.identifyClasses_ok stages'.identifying
  have listed := Draft.listObservables_outside proper identified
    (by rw [identifiedShape]; exact dictionary)
    (by rw [identifiedShape, resolvedShape]; exact captions)
    (by
      rw [identifiedShape, resolvedShape]
      exact fun entry member => clearObjects entry (List.mem_of_mem_filter member))
    guardedClasses
    (by rw [identifiedShape, resolvedShape]; exact guardedProfiles)
    stages.listing stages'.listing
  have closed := Draft.closeAllProfiles_outside proper listed stages.closing stages'.closing
  have dated := Draft.addDatetimeSiblings_outside closed stages.dating stages'.dating
  have required := Draft.requireAll_outside dated stages.requiring stages'.requiring
  have finished := Draft.finish_outside proper required stages.finishing stages'.finishing
  exact graph_outside finished stages.reading stages'.reading

end EventSchema
