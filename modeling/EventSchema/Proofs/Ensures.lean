import EventSchema.Proofs.Outcome

/-!
What computations and actions ensure.

A computation ensures a property if it comes to a value and the property holds of that value; an action
does if every run of it ends with such a value. Both compose: a sequence of steps ensures what its rest
ensures after every value that the first step can come to.
-/

set_option autoImplicit false

namespace EventSchema

variable {α β : Type}

def Ensures (computation : Except Fault α) (property : α → Prop) : Prop :=
  ∃ value, computation = .ok value ∧ property value

namespace Ensures

theorem ok {value : α} {property : α → Prop} (held : property value) : Ensures (.ok value) property :=
  ⟨value, rfl, held⟩

theorem pure {value : α} {property : α → Prop} (held : property value) :
    Ensures (Pure.pure value : Except Fault α) property := ⟨value, rfl, held⟩

theorem imp {computation : Except Fault α} {property weaker : α → Prop} (ensures : Ensures computation property)
    (implied : ∀ value, property value → weaker value) : Ensures computation weaker := by
  obtain ⟨value, same, held⟩ := ensures
  exact ⟨value, same, implied value held⟩

theorem bind {first : Except Fault α} {next : α → Except Fault β} {property : α → Prop} {last : β → Prop}
    (ensures : Ensures first property) (each : ∀ value, property value → Ensures (next value) last) :
    Ensures (first >>= next) last := by
  obtain ⟨value, same, held⟩ := ensures
  rw [same, ok_bind]
  exact each value held

theorem mapM {f : α → Except Fault β} {items : List α} {relation : α → β → Prop}
    (each : ∀ item ∈ items, Ensures (f item) (relation item)) :
    Ensures (items.mapM f) (List.Forall₂ relation items) := by
  induction items with
  | nil => exact .pure .nil
  | cons head rest ih =>
      rw [List.mapM_cons]
      refine (each head (List.mem_cons_self ..)).bind fun value held => ?_
      exact (ih fun item member => each item (List.mem_cons_of_mem _ member)).bind fun values others =>
        .pure (.cons held others)

private theorem mapEntries {f : Text × α → Except Fault β} {items : Entries α} {relation : Text → α → β → Prop}
    (each : ∀ entry ∈ items, Ensures (f entry) (relation entry.1 entry.2)) :
    Ensures (items.mapM fun entry => do return (entry.1, ← f entry)) (Entries.Related relation items) :=
  mapM fun entry member => (each entry member).bind fun _ held => .pure ⟨rfl, held⟩

theorem mapEach {f : Text × α → Except Fault β} {items : Entries α} {property : β → Prop}
    (each : ∀ entry ∈ items, Ensures (f entry) property) :
    Ensures (items.mapM fun entry => do return (entry.1, ← f entry))
      (Entries.Related (fun _ _ => property) items) := mapEntries each

theorem filterMapM {f : α → Except Fault (Option β)} {items : List α} {property : β → Prop}
    (each : ∀ item ∈ items, Ensures (f item) fun found => ∀ result ∈ found, property result) :
    Ensures (items.filterMapM f) fun results => ∀ result ∈ results, property result := by
  induction items with
  | nil => exact .pure fun _ impossible => absurd impossible List.not_mem_nil
  | cons head rest ih =>
      obtain ⟨others, later, held⟩ := ih fun item member => each item (List.mem_cons_of_mem _ member)
      rw [List.filterMapM_cons]
      refine (each head (List.mem_cons_self ..)).bind fun found first => ?_
      cases found with
      | none => exact ⟨others, later, held⟩
      | some value =>
          rw [later]
          exact .ok (List.forall_mem_cons.mpr ⟨first value rfl, held⟩)

theorem foldlM {property : β → Prop} {step : β → α → Except Fault β} {items : List α} {start : β}
    (initial : property start)
    (each : ∀ state, ∀ item ∈ items, property state → Ensures (step state item) property) :
    Ensures (items.foldlM step start) property := by
  induction items generalizing start with
  | nil => exact .pure initial
  | cons head rest ih =>
      rw [List.foldlM_cons]
      refine (each start head (List.mem_cons_self ..) initial).bind fun next held => ?_
      exact ih held fun state item member => each state item (List.mem_cons_of_mem _ member)

end Ensures

namespace Act

/-- Every run of the action ends with a value with the property. -/
def Ensures (act : Act α) (property : α → Prop) : Prop :=
  ∀ run, ∃ value after, act.outcome run = (.ok value, after) ∧ property value

theorem ensures_pure {value : α} {property : α → Prop} (held : property value) :
    (pure value : Act α).Ensures property := fun run => ⟨value, run, outcome_pure value run, held⟩

theorem ensures_lift {computation : Except Fault α} {property : α → Prop}
    (ensures : EventSchema.Ensures computation property) : (liftM computation : Act α).Ensures property := by
  obtain ⟨value, rfl, held⟩ := ensures
  exact fun run => ⟨value, run, outcome_lift _ run, held⟩

theorem ensures_note (notice : Notice) : (note notice).Ensures fun _ => True :=
  fun _ => ⟨(), _, rfl, trivial⟩

theorem ensures_warn (notice : Notice) : (warn notice).Ensures fun _ => True :=
  fun _ => ⟨(), _, rfl, trivial⟩

theorem ensures_complain (notice : Notice) : (complain notice).Ensures fun _ => True :=
  fun _ => ⟨(), _, rfl, trivial⟩

namespace Ensures

variable {act : Act α} {property : α → Prop}

theorem imp {weaker : α → Prop} (ensures : act.Ensures property)
    (implied : ∀ value, property value → weaker value) : act.Ensures weaker := by
  intro run
  obtain ⟨value, after, ran, held⟩ := ensures run
  exact ⟨value, after, ran, implied value held⟩

theorem bind {next : α → Act β} {last : β → Prop} (ensures : act.Ensures property)
    (each : ∀ value, property value → (next value).Ensures last) : (act >>= next).Ensures last := by
  intro run
  obtain ⟨value, after, ran, held⟩ := ensures run
  obtain ⟨result, final, ended, kept⟩ := each value held after
  refine ⟨result, final, ?_, kept⟩
  rw [outcome_bind, ran]
  exact ended

/-- The value that a run ends with is one that the action yields. -/
theorem yields (ensures : act.Ensures property) : act.Ensures fun value => act.Yields value ∧ property value := by
  intro run
  obtain ⟨value, after, ran, held⟩ := ensures run
  exact ⟨value, after, ran, .of_outcome ran, held⟩

end Ensures

def Ends (act : Act α) (property : Except Fault α → Prop) : Prop := ∀ run, property (act.outcome run).1

theorem Ensures.ends {act : Act α} {held : α → Prop} {property : Except Fault α → Prop} (ensures : act.Ensures held)
    (each : ∀ value, held value → property (.ok value)) : act.Ends property := by
  intro run
  obtain ⟨value, after, ran, held⟩ := ensures run
  rw [ran]
  exact each value held

theorem Ensures.ends_bind {act : Act α} {next : α → Act β} {held : α → Prop} {property : Except Fault β → Prop}
    (ensures : act.Ensures held) (each : ∀ value, held value → (next value).Ends property) :
    (act >>= next).Ends property := by
  intro run
  obtain ⟨value, after, ran, held⟩ := ensures run
  rw [outcome_bind, ran]
  exact each value held after

theorem ends_bind_of_fault {act : Act α} {next : α → Act β} {property : Except Fault β → Prop}
    (fails : ∀ run, ∃ fault after, act.outcome run = (.error fault, after) ∧ property (.error fault)) :
    (act >>= next).Ends property := by
  intro run
  obtain ⟨fault, after, ran, held⟩ := fails run
  rw [outcome_bind, ran]
  exact held

theorem ensures_mapM {f : α → Act β} {items : List α} {relation : α → β → Prop}
    (each : ∀ item ∈ items, (f item).Ensures (relation item)) :
    (items.mapM f).Ensures (List.Forall₂ relation items) := by
  induction items with
  | nil =>
      rw [List.mapM_nil]
      exact ensures_pure .nil
  | cons head rest ih =>
      rw [List.mapM_cons]
      refine (each head (List.mem_cons_self ..)).bind fun value held => ?_
      exact (ih fun item member => each item (List.mem_cons_of_mem _ member)).bind fun values others =>
        ensures_pure (.cons held others)

theorem ensures_mapEntries {f : Text × α → Act β} {items : Entries α} {relation : Text → α → β → Prop}
    (each : ∀ entry ∈ items, (f entry).Ensures (relation entry.1 entry.2)) :
    (items.mapM fun entry => do return (entry.1, ← f entry) : Act (Entries β)).Ensures
      (Entries.Related relation items) :=
  ensures_mapM fun entry member => (each entry member).bind fun _ held => ensures_pure ⟨rfl, held⟩

theorem ensures_mapEach {f : Text × α → Act β} {items : Entries α} {property : β → Prop}
    (each : ∀ entry ∈ items, (f entry).Ensures property) :
    (items.mapM fun entry => do return (entry.1, ← f entry) : Act (Entries β)).Ensures
      (Entries.Related (fun _ _ => property) items) := ensures_mapEntries each

theorem ensures_forM {f : α → Act Unit} {items : List α} (each : ∀ item ∈ items, (f item).Ensures fun _ => True) :
    (items.forM f).Ensures fun _ => True := by
  induction items with
  | nil => exact ensures_pure trivial
  | cons head rest ih =>
      change (f head >>= fun _ => rest.forM f).Ensures _
      exact (each head (List.mem_cons_self ..)).bind fun _ _ =>
        ih fun item member => each item (List.mem_cons_of_mem _ member)

/-- A loop over items, whose body changes nothing that the loop carries. -/
theorem ensures_forIn {f : α → PUnit → Act (ForInStep PUnit)} {items : List α}
    (each : ∀ item ∈ items, (f item PUnit.unit).Ensures fun step => step = .yield PUnit.unit) :
    (forIn items PUnit.unit f : Act PUnit).Ensures fun _ => True := by
  induction items with
  | nil =>
      rw [List.forIn_nil]
      exact ensures_pure trivial
  | cons head rest ih =>
      rw [List.forIn_cons]
      refine (each head (List.mem_cons_self ..)).bind fun step same => ?_
      rw [same]
      exact ih fun item member => each item (List.mem_cons_of_mem _ member)

theorem ensures_foldlM {property : β → Prop} {step : β → α → Act β} {items : List α} {start : β}
    (initial : property start)
    (each : ∀ state, ∀ item ∈ items, property state → (step state item).Ensures property) :
    (items.foldlM step start).Ensures property := by
  induction items generalizing start with
  | nil => exact ensures_pure initial
  | cons head rest ih =>
      rw [List.foldlM_cons]
      refine (each start head (List.mem_cons_self ..) initial).bind fun next held => ?_
      exact ih held fun state item member => each state item (List.mem_cons_of_mem _ member)

end Act

end EventSchema
