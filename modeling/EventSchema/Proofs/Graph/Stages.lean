import EventSchema.Graph.Build
import EventSchema.Proofs.Draft.Attributes
import EventSchema.Proofs.Draft.Profiles

/-!
A build stage by stage.

A build that gives a graph has passed every stage, and each stage changes the items of the draft one
by one or leaves them alone. What a stage does to the items is stated once here; what holds of a graph
is then followed from stage to stage.
-/

set_option autoImplicit false

namespace EventSchema

structure Stages (d : Definitions) (graph : Graph) where
  rawClasses : Fields
  rawObjects : Fields
  start : Draft
  flatClasses : Entries Fields
  flatObjects : Entries Fields
  resolved : Draft
  identified : Draft
  listed : Draft
  closed : Draft
  dated : Draft
  required : Draft
  finished : Draft
  readClasses : d.classes.asFields = .ok rawClasses
  readObjects : d.objects.asFields = .ok rawObjects
  starting : Draft.ofDefinitions d = .ok start
  flattenClasses : (Lineage.flattenAll .eventClass rawClasses).Yields flatClasses
  flattenObjects : (Lineage.flattenAll .object rawObjects).Yields flatObjects
  resolving : ({ start with classes := flatClasses, objects := flatObjects } :
    Draft).hideItems.resolveDictionary.Yields resolved
  identifying : resolved.identifyClasses.Yields identified
  listing : identified.listObservables.Yields listed
  closing : listed.closeAllProfiles.Yields closed
  dating : closed.addDatetimeSiblings = .ok dated
  requiring : dated.requireAll.Yields required
  finishing : required.finish = .ok finished
  reading : finished.graph = .ok graph

/-- A build that gives a graph has passed all stages. -/
theorem exists_stages {d : Definitions} {graph : Graph} (built : (Graph.ofDefinitions d).Yields graph) :
    Nonempty (Stages d graph) := by
  unfold Graph.ofDefinitions at built
  obtain ⟨start, starting, built⟩ := Act.yields_bind built
  obtain ⟨rawClasses, readClasses, built⟩ := Act.yields_bind built
  obtain ⟨flatClasses, flattenClasses, built⟩ := Act.yields_bind built
  obtain ⟨rawObjects, readObjects, built⟩ := Act.yields_bind built
  obtain ⟨flatObjects, flattenObjects, built⟩ := Act.yields_bind built
  obtain ⟨resolved, resolving, built⟩ := Act.yields_bind built
  obtain ⟨identified, identifying, built⟩ := Act.yields_bind built
  obtain ⟨listed, listing, built⟩ := Act.yields_bind built
  obtain ⟨_, _, built⟩ := Act.yields_bind built
  obtain ⟨_, _, built⟩ := Act.yields_bind built
  obtain ⟨closed, closing, built⟩ := Act.yields_bind built
  obtain ⟨dated, dating, built⟩ := Act.yields_bind built
  obtain ⟨_, _, built⟩ := Act.yields_bind built
  obtain ⟨_, _, built⟩ := Act.yields_bind built
  obtain ⟨required, requiring, built⟩ := Act.yields_bind built
  obtain ⟨finished, finishing, built⟩ := Act.yields_bind built
  exact ⟨{
    rawClasses, rawObjects, start, flatClasses, flatObjects, resolved, identified, listed, closed
    dated, required, finished
    readClasses := Act.yields_lift.mp readClasses
    readObjects := Act.yields_lift.mp readObjects
    starting := Act.yields_lift.mp starting
    flattenClasses, flattenObjects, resolving, identifying, listing, closing
    dating := Act.yields_lift.mp dating
    requiring
    finishing := Act.yields_lift.mp finishing
    reading := Act.yields_lift.mp built }⟩

namespace Draft

/-! ### What each stage does to the items -/

theorem resolveDictionary_ok {draft resolved : Draft} (ran : draft.resolveDictionary.Yields resolved) :
    ∃ attributes, resolved = { draft with attributes } := by
  unfold resolveDictionary at ran
  obtain ⟨attributes, _, ran⟩ := Act.yields_bind ran
  obtain ⟨enabled, _, ran⟩ := Act.yields_bind ran
  cases enabled with
  | true =>
      obtain ⟨_, _, ran⟩ := Act.yields_bind ran
      obtain ⟨siblings, _, ran⟩ := Act.yields_bind ran
      exact ⟨_, (Act.yields_pure.mp ran).symm⟩
  | false => exact ⟨_, (Act.yields_pure.mp ran).symm⟩

/-- Every class is identified, and nothing else changes. -/
theorem identifyClasses_ok {draft identified : Draft} (ran : draft.identifyClasses.Yields identified) :
    ∃ classes, identified = { draft with classes } ∧
      Entries.Related (fun key item result => (identify draft key item).Yields result)
        draft.classes classes := by
  unfold identifyClasses at ran
  obtain ⟨classes, each, ran⟩ := Act.yields_bind ran
  exact ⟨classes, (Act.yields_pure.mp ran).symm, Act.yields_mapEntries each⟩

theorem listObservables_ok {draft listed : Draft} (ran : draft.listObservables.Yields listed) :
    (Entries.get? "observable" draft.objects = none ∧ listed = draft) ∨
      ∃ object attributes ids enumeration,
      Entries.get? "observable" draft.objects = some object ∧
      (Entries.orEmpty "attributes" object).asFields = .ok attributes ∧
      (Entries.orEmpty "type_id" attributes).asFields = .ok ids ∧
      enumerate draft.observables (Entries.orEmpty "enum" ids) = .ok enumeration ∧
      listed = { draft with
        objects := Entries.put "observable" (Entries.put "attributes" (.record
          (Value.putShared "type_id" (.record (Entries.put "enum" enumeration ids)) attributes))
          object) draft.objects } := by
  unfold listObservables at ran
  cases found : Entries.get? "observable" draft.objects with
  | none =>
      rw [found] at ran
      dsimp only at ran
      refine Or.inl ⟨rfl, ?_⟩
      split at ran
      · obtain ⟨_, _, ran⟩ := Act.yields_bind ran
        exact (Act.yields_pure.mp ran).symm
      · exact (Act.yields_pure.mp ran).symm
  | some object =>
      rw [found] at ran
      obtain ⟨attributes, read, ran⟩ := Act.yields_bind ran
      obtain ⟨ids, readIds, ran⟩ := Act.yields_bind ran
      obtain ⟨enumeration, numbered, ran⟩ := Act.yields_bind ran
      exact Or.inr ⟨object, attributes, ids, enumeration, rfl, Act.yields_lift.mp read,
        Act.yields_lift.mp readIds, Act.yields_lift.mp numbered, (Act.yields_pure.mp ran).symm⟩

/-- Siblings are added to every item if they are enabled, and nothing changes otherwise. -/
theorem addDatetimeSiblings_ok {draft dated : Draft} (ran : draft.addDatetimeSiblings = .ok dated) :
    (draft.datetimeEnabled = .ok false ∧ dated = draft) ∨
      (draft.datetimeEnabled = .ok true ∧ ∃ classes objects, dated = { draft with classes, objects } ∧
        Entries.Related (fun _ item result => draft.addSiblings item = .ok result)
          draft.classes classes ∧
        Entries.Related (fun _ item result => draft.addSiblings item = .ok result)
          draft.objects objects) := by
  unfold addDatetimeSiblings at ran
  obtain ⟨enabled, asked, ran⟩ := bind_eq_ok.mp ran
  cases enabled with
  | false => exact Or.inl ⟨asked, (pure_eq_ok.mp ran).symm⟩
  | true =>
      obtain ⟨classes, inClasses, ran⟩ := bind_eq_ok.mp ran
      obtain ⟨objects, inObjects, ran⟩ := bind_eq_ok.mp ran
      exact Or.inr ⟨asked, classes, objects, (pure_eq_ok.mp ran).symm,
        Entries.mapM_eq_ok.mp inClasses, Entries.mapM_eq_ok.mp inObjects⟩

theorem requireItems_ok {kind : ItemKind} {items : Entries Fields} {done : Entries Fields × List Text}
    (ran : requireItems kind items = .ok done) :
    Entries.Related (fun key item result => ∃ missing,
      requireItem kind key item = .ok (result, missing)) items done.1 := by
  unfold requireItems at ran
  obtain ⟨each, treated, ran⟩ := bind_eq_ok.mp ran
  rw [pure_eq_ok] at ran
  subst ran
  refine List.forall₂_map_right_iff.mpr ((mapM_eq_ok.mp treated).imp ?_)
  intro entry result one
  obtain ⟨⟨item, missing⟩, required, same⟩ := bind_eq_ok.mp one
  rw [pure_eq_ok] at same
  subst same
  exact ⟨rfl, missing, required⟩

theorem requireAll_ok {draft required : Draft} (ran : draft.requireAll.Yields required) :
    ∃ profiles classes objects, required = { draft with profiles, classes, objects } ∧
      Entries.Related (fun key item result => ∃ missing,
        requireItem .eventClass key item = .ok (result, missing)) draft.classes classes ∧
      Entries.Related (fun key item result => ∃ missing,
        requireItem .object key item = .ok (result, missing)) draft.objects objects := by
  unfold requireAll at ran
  obtain ⟨_, _, ran⟩ := Act.yields_bind ran
  obtain ⟨_, _, ran⟩ := Act.yields_bind ran
  obtain ⟨⟨classes, _⟩, inClasses, ran⟩ := Act.yields_bind ran
  obtain ⟨⟨objects, _⟩, inObjects, ran⟩ := Act.yields_bind ran
  have related := And.intro (requireItems_ok (Act.yields_lift.mp inClasses))
    (requireItems_ok (Act.yields_lift.mp inObjects))
  dsimp only at ran
  split at ran
  · obtain ⟨_, _, ran⟩ := Act.yields_bind ran
    exact ⟨_, classes, objects, (Act.yields_pure.mp ran).symm, related⟩
  · exact ⟨_, classes, objects, (Act.yields_pure.mp ran).symm, related⟩

theorem finish_ok {draft finished : Draft} (ran : draft.finish = .ok finished) :
    ∃ profiles classes objects, finished = { draft with profiles, classes, objects } ∧
      Entries.Related (fun _ item result => draft.finishItem item = .ok result)
        draft.classes classes ∧
      Entries.Related (fun _ item result => draft.finishItem item = .ok result)
        draft.objects objects := by
  unfold finish at ran
  obtain ⟨classes, inClasses, ran⟩ := bind_eq_ok.mp ran
  obtain ⟨objects, inObjects, ran⟩ := bind_eq_ok.mp ran
  obtain ⟨items, _, ran⟩ := bind_eq_ok.mp ran
  obtain ⟨profiles, _, ran⟩ := bind_eq_ok.mp ran
  exact ⟨_, classes, objects, (pure_eq_ok.mp ran).symm, Entries.mapM_eq_ok.mp inClasses,
    Entries.mapM_eq_ok.mp inObjects⟩

theorem graph_ok {draft : Draft} {graph : Graph} (ran : draft.graph = .ok graph) :
    Links.ofItems draft.classes draft.objects = .ok graph.links ∧
      Entries.Related (fun key item entity => Entity.ofFields key .eventClass item = .ok entity)
        draft.classes graph.classes ∧
      Entries.Related (fun key item entity => Entity.ofFields key .object item = .ok entity)
        draft.objects graph.objects := by
  unfold Draft.graph at ran
  obtain ⟨links, linked, ran⟩ := bind_eq_ok.mp ran
  obtain ⟨classes, inClasses, ran⟩ := bind_eq_ok.mp ran
  obtain ⟨objects, inObjects, ran⟩ := bind_eq_ok.mp ran
  obtain ⟨_, _, ran⟩ := bind_eq_ok.mp ran
  obtain ⟨_, _, ran⟩ := bind_eq_ok.mp ran
  obtain ⟨_, _, ran⟩ := bind_eq_ok.mp ran
  obtain ⟨_, _, ran⟩ := bind_eq_ok.mp ran
  rw [pure_eq_ok] at ran
  subst ran
  exact ⟨linked, Entries.mapM_eq_ok.mp inClasses, Entries.mapM_eq_ok.mp inObjects⟩

end Draft

namespace Stages

variable {d : Definitions} {graph : Graph} (stages : Stages d graph)

/-- The draft once its items are flattened and the hidden ones taken out. -/
def hidden : Draft :=
  ({ stages.start with classes := stages.flatClasses, objects := stages.flatObjects } : Draft).hideItems

/-- Until the requirements are filled in, nothing changes but the items that are shown and the attributes
of the dictionary. -/
theorem dated_eq : ∃ attributes classes objects,
    stages.dated = { stages.hidden with attributes, classes, objects } := by
  obtain ⟨attributes, resolved⟩ := Draft.resolveDictionary_ok stages.resolving
  obtain ⟨classes, identified, _⟩ := Draft.identifyClasses_ok stages.identifying
  have listed : ∃ objects, stages.listed = { stages.identified with objects } := by
    rcases Draft.listObservables_ok stages.listing with ⟨_, same⟩ | ⟨_, _, _, _, _, _, _, _, same⟩
    · exact ⟨_, same⟩
    · exact ⟨_, same⟩
  obtain ⟨_, listed⟩ := listed
  obtain ⟨objects, classes', closed, _⟩ := Draft.closeAllProfiles_ok (motive := fun _ _ => True)
    stages.closing trivial (fun _ _ _ _ _ _ _ _ => trivial) (fun _ _ _ _ _ => trivial)
  rw [listed, identified, resolved] at closed
  rcases Draft.addDatetimeSiblings_ok stages.dating with ⟨_, same⟩ | ⟨_, _, _, same, _⟩
  · exact ⟨attributes, classes', objects, same.trans closed⟩
  · rw [closed] at same
    exact ⟨attributes, _, _, same⟩

end Stages

end EventSchema
