import EventSchema.Contribution.Dictionary
import EventSchema.Contribution.Patch
import EventSchema.Proofs.Outcome
import EventSchema.Record.Category
import EventSchema.Record.Entity

/-!
Computations that keep identifiers in their ranges and extensions apart.

An identifier out of its range is a fault of its own, which nothing but the arithmetic of identifiers
ends with, and so is a collision of extensions, which nothing but their validation ends with. These faults
are *singular*. A computation is *confined* to what is allowed if it ends with no other singular fault.
Nothing that reads values, names or records ever ends with one.
-/

set_option autoImplicit false

namespace EventSchema

@[simp]
def IntegrityFault.isCollision : IntegrityFault → Bool
  | extensionUid .. | extensionName .. => true
  | includeCycle .. | parentCycle .. | noDictionary | noBaseEvent | requiredFile _ => false

@[simp]
def Fault.isSingular : Fault → Bool
  | range _ => true
  | integrity fault => fault.isCollision
  | definition _ | document _ | duplicate _ | file _ | misuse _ => false

variable {α β : Type} {allowed : Fault → Prop}

def Confined (allowed : Fault → Prop) (computation : Except Fault α) : Prop :=
  ∀ fault, computation = .error fault → fault.isSingular = true → allowed fault

def InRange (allowed : RangeFault → Prop) (computation : Except Fault α) : Prop :=
  ∀ fault, computation = .error (.range fault) → allowed fault

theorem Confined.inRange {computation : Except Fault α} {inside : RangeFault → Prop}
    (confined : Confined allowed computation) (each : ∀ fault, allowed (.range fault) → inside fault) :
    InRange inside computation :=
  fun fault ended => each fault (confined (.range fault) ended rfl)

namespace Confined

@[simp]
theorem ok (value : α) : Confined allowed (.ok value : Except Fault α) :=
  fun _ impossible => by cases impossible

@[simp]
theorem pure (value : α) : Confined allowed (Pure.pure value : Except Fault α) := ok value

@[simp]
theorem error_iff {fault : Fault} :
    Confined allowed (.error fault : Except Fault α) ↔ fault.isSingular = true → allowed fault := by
  simp [Confined]

@[simp]
theorem throw_iff {fault : Fault} :
    Confined allowed (throw fault : Except Fault α) ↔ fault.isSingular = true → allowed fault := error_iff

@[simp]
theorem misused (misuse : Misuse) : Confined allowed (EventSchema.misused misuse : Except Fault α) := by
  simp [EventSchema.misused]

/-- A sequence is in range if its first step is and what comes after it. -/
@[simp]
theorem bind_iff {first : Except Fault α} {next : α → Except Fault β} :
    Confined allowed (first >>= next) ↔ Confined allowed first ∧ ∀ value, first = .ok value →
      Confined allowed (next value) := by
  cases first with
  | error fault => simp [Confined, bind, Except.bind]
  | ok value => simp [Confined, bind, Except.bind]

@[simp]
theorem map_iff {f : α → β} {first : Except Fault α} : Confined allowed (f <$> first) ↔ Confined allowed first := by
  cases first <;> simp [Confined, Functor.map, Except.map]

@[simp]
theorem ite_iff {condition : Prop} [Decidable condition] {yes no : Except Fault α} :
    Confined allowed (if condition then yes else no) ↔ (condition → Confined allowed yes) ∧
      (¬condition → Confined allowed no) := by
  split <;> simp [*]

theorem mapM {f : α → Except Fault β} {items : List α} (each : ∀ item ∈ items, Confined allowed (f item)) :
    Confined allowed (items.mapM f) := by
  induction items with
  | nil => simp
  | cons head rest ih =>
      have own := each head (List.mem_cons_self ..)
      have others := ih fun item member => each item (List.mem_cons_of_mem _ member)
      simp [List.mapM_cons, own, others]

theorem foldlM {step : β → α → Except Fault β} {items : List α} {start : β}
    (each : ∀ state item, Confined allowed (step state item)) : Confined allowed (items.foldlM step start) := by
  induction items generalizing start with
  | nil => simp
  | cons head rest ih => simp [List.foldlM_cons, each, ih]

theorem filterMapM {f : α → Except Fault (Option β)} {items : List α} (each : ∀ item, Confined allowed (f item)) :
    Confined allowed (items.filterMapM f) := by
  induction items with
  | nil => simp
  | cons head rest ih =>
      rw [List.filterMapM_cons]
      refine bind_iff.mpr ⟨each head, fun found _ => ?_⟩
      cases found <;> simp [ih]

end Confined

/-! ### Actions -/

namespace Act

variable {run : Run}

@[simp]
theorem confined_pure (value : α) : Confined allowed ((pure value : Act α).outcome run).1 := by
  simp [outcome_pure]

@[simp]
theorem confined_throw_iff {fault : Fault} : Confined allowed ((throw fault : Act α).outcome run).1 ↔
    fault.isSingular = true → allowed fault := by
  simp [outcome_throw]

@[simp]
theorem confined_lift_iff {computation : Except Fault α} :
    Confined allowed ((liftM computation : Act α).outcome run).1 ↔ Confined allowed computation := by
  rw [outcome_lift]

@[simp]
theorem confined_note (notice : Notice) : Confined allowed ((note notice).outcome run).1 := Confined.ok ()

@[simp]
theorem confined_warn (notice : Notice) : Confined allowed ((warn notice).outcome run).1 := Confined.ok ()

@[simp]
theorem confined_complain (notice : Notice) : Confined allowed ((complain notice).outcome run).1 := Confined.ok ()

@[simp]
theorem confined_leaveUnresolved (reference : Unresolved) :
    Confined allowed ((leaveUnresolved reference).outcome run).1 := Confined.ok ()

@[simp]
theorem confined_get : Confined allowed ((get : Act Run).outcome run).1 := Confined.ok run

@[simp]
theorem confined_modify (change : Run → Run) : Confined allowed ((modify change : Act PUnit).outcome run).1 :=
  Confined.ok ()

@[simp]
theorem confined_attempt (act : Act α) : Confined allowed (act.attempt.outcome run).1 := Confined.ok _

/-- A sequence is in range if its first action is and what comes after it. -/
@[simp]
theorem confined_bind_iff {first : Act α} {next : α → Act β} :
    Confined allowed ((first >>= next).outcome run).1 ↔ Confined allowed (first.outcome run).1 ∧
      ∀ value after, first.outcome run = (.ok value, after) → Confined allowed ((next value).outcome after).1 := by
  rw [outcome_bind]
  cases first.outcome run with
  | mk outcome middle => cases outcome <;> simp

@[simp]
theorem confined_map_iff {f : α → β} {act : Act α} :
    Confined allowed ((f <$> act).outcome run).1 ↔ Confined allowed (act.outcome run).1 := by
  rw [map_eq_pure_bind, confined_bind_iff]
  exact and_iff_left fun _ _ _ => confined_pure _

@[simp]
theorem confined_ite_iff {condition : Prop} [Decidable condition] {yes no : Act α} :
    Confined allowed ((if condition then yes else no).outcome run).1 ↔
      (condition → Confined allowed (yes.outcome run).1) ∧ (¬condition → Confined allowed (no.outcome run).1) := by
  split <;> simp [*]

theorem confined_mapM {act : α → Act β} {items : List α}
    (each : ∀ item ∈ items, ∀ run, Confined allowed ((act item).outcome run).1) :
    Confined allowed ((items.mapM act).outcome run).1 := by
  induction items generalizing run with
  | nil => exact confined_pure []
  | cons head rest ih =>
      have own := each head (List.mem_cons_self ..)
      have others (run : Run) : Confined allowed ((rest.mapM act).outcome run).1 :=
        ih fun item member => each item (List.mem_cons_of_mem _ member)
      simp [List.mapM_cons, own, others]

theorem confined_foldlM {step : β → α → Act β} {items : List α} {start : β}
    (each : ∀ state, ∀ item ∈ items, ∀ run, Confined allowed ((step state item).outcome run).1) :
    Confined allowed ((items.foldlM step start).outcome run).1 := by
  induction items generalizing start run with
  | nil => exact confined_pure start
  | cons head rest ih =>
      have own := each start head (List.mem_cons_self ..)
      have others (next : β) (run : Run) : Confined allowed ((rest.foldlM step next).outcome run).1 :=
        ih fun state item member => each state item (List.mem_cons_of_mem _ member)
      simp [List.foldlM_cons, own, others]

theorem confined_forM {act : α → Act Unit} {items : List α}
    (each : ∀ item ∈ items, ∀ run, Confined allowed ((act item).outcome run).1) :
    Confined allowed ((items.forM act).outcome run).1 := by
  induction items generalizing run with
  | nil => exact confined_pure ()
  | cons head rest ih =>
      change Confined allowed ((act head >>= fun _ => rest.forM act).outcome run).1
      exact confined_bind_iff.mpr ⟨each head (List.mem_cons_self ..) run, fun _ after _ =>
        ih fun item member => each item (List.mem_cons_of_mem _ member)⟩

theorem confined_forIn {step : α → β → Act (ForInStep β)} {items : List α} {start : β}
    (each : ∀ item state run, Confined allowed ((step item state).outcome run).1) :
    Confined allowed ((forIn items start step : Act β).outcome run).1 := by
  induction items generalizing start run with
  | nil => exact confined_pure start
  | cons head rest ih =>
      rw [List.forIn_cons]
      refine confined_bind_iff.mpr ⟨each head start run, fun next after _ => ?_⟩
      cases next with
      | done state => exact confined_pure state
      | yield state => exact ih

end Act

/-! ### Values -/

namespace Value

@[simp]
theorem confined_asFields (v : Value) : Confined allowed v.asFields := by cases v <;> simp [asFields]

@[simp]
theorem confined_field? (key : Text) (v : Value) : Confined allowed (v.field? key) := by simp [field?]

@[simp]
theorem confined_at (key : Text) (v : Value) : Confined allowed (v.at_ key) := by
  cases v with
  | object mark fields => cases found : Entries.get? key fields <;> simp [at_, found]
  | _ => simp [at_]

@[simp]
theorem confined_withField (target : Value) (key : Text) (value : Value) :
    Confined allowed (target.withField key value) := by cases target <;> simp [withField]

@[simp]
theorem confined_iterate (v : Value) : Confined allowed v.iterate := by cases v <;> simp [iterate]

@[simp]
theorem confined_member (value container : Value) : Confined allowed (value.member container) := by
  cases container with
  | array items => simp [member]
  | object mark fields => cases value <;> simp [member]
  | text whole => cases value <;> simp [member]
  | _ => simp [member]

@[simp]
theorem confined_lookup? (key : Value) (entries : Entries α) : Confined allowed (key.lookup? entries) := by
  cases key <;> simp [lookup?]

@[simp]
theorem confined_isEntry (key : Value) (entries : Entries α) : Confined allowed (key.isEntry entries) := by
  simp [isEntry]

@[simp]
theorem confined_fieldsOrNone (value : Option Value) : Confined allowed (fieldsOrNone value) := by
  cases value <;> simp [fieldsOrNone]

@[simp]
theorem confined_itemsOrNone (value : Option Value) : Confined allowed (itemsOrNone value) := by simp [itemsOrNone]

@[simp]
theorem confined_keyText (v : Value) : Confined allowed v.keyText := by
  cases v with
  | bool b => cases b <;> simp [keyText]
  | _ => simp [keyText]

@[simp]
theorem confined_asPair (item : Value) : Confined allowed item.asPair := by
  refine Confined.bind_iff.mpr ⟨item.confined_iterate, fun parts _ => ?_⟩
  split <;> simp

@[simp]
theorem confined_asRecord (v : Value) : Confined allowed v.asRecord := by
  cases v with
  | object mark fields => simp [asRecord]
  | _ => simp [asRecord, Confined.mapM]

end Value

/-! ### Names and profiles -/

private theorem Scope.confined_findBy {has : Value → Except Fault Bool} (each : ∀ key, Confined allowed (has key))
    (name : Value)
    (scope : Option Value) : Confined allowed (findBy has name scope) := by
  cases scope <;> simp [findBy, each]

@[simp]
theorem Scope.confined_find? (entries : Entries α) (name : Value) (scope : Option Value) :
    Confined allowed (find? entries name scope) := confined_findBy (fun key => key.confined_isEntry entries) name scope

@[simp]
theorem Scope.confined_findIn (container name : Value) (scope : Option Value) :
    Confined allowed (findIn container name scope) := confined_findBy (fun key => key.confined_member container) name
      scope

@[simp]
theorem confined_mergeProfiles (lists : List (Option Value)) : Confined allowed (mergeProfiles lists) :=
  Confined.foldlM fun merged profiles => by cases profiles <;> simp

/-! ### Records -/

@[simp]
theorem Attribute.confined_ofDocument (attributes : Option Value) : Confined allowed (ofDocument attributes) := by
  simp [ofDocument]

@[simp]
theorem Entity.confined_ofFields (key : Text) (kind : ItemKind) (fields : Fields) :
    Confined allowed (ofFields key kind fields) := by simp [ofFields]

@[simp]
theorem Category.confined_ofValue (key : Text) (value : Value) : Confined allowed (ofValue key value) := by
  simp [ofValue]

@[simp]
theorem Profile.confined_ofValue (key : Text) (value : Value) : Confined allowed (ofValue key value) := by
  simp [ofValue, ofFields]

end EventSchema
