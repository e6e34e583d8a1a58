import EventSchema.Proofs.Lineage.Cycles

/-!
Calls of one flattening after another.

What is asked for before, and whether it ended well, does not show in what a call comes to: each call answers
as it would if it were the first one. And an item whose parent is nowhere is told of once, by whichever call
comes upon it first.
-/

set_option autoImplicit false

namespace EventSchema.Lineage

inductive Call where
  | findParent (key : Text) (item : Value)
  | flatten (key : Text)
  | flattenEach

inductive Answer where
  | parent (found : Option Text)
  | item (flat : Fields)
  | items (flats : Entries Fields)

def Call.answer (kind : ItemKind) (items : Fields) : Call → Flattening Answer
  | findParent key item => do return .parent (← Lineage.findParent items key item)
  | flatten key => .item <$> Lineage.flatten kind items [] key
  | flattenEach => .items <$> Lineage.flattenEach kind items

/-- Run a walk and give its outcome, a fault included, as a value. What it flattened is kept. -/
def Flattening.attempt {α : Type} (walk : Flattening α) : Flattening (Except Fault α) := fun memo run =>
  match walk.outcome memo run with
  | (outcome, kept, after) => ((.ok outcome, kept), after)

/-- The outcomes of calls one after another, a fault of one not keeping the next from being made. -/
def session (kind : ItemKind) (items : Fields) (calls : List Call) : Flattening (List (Except Fault Answer)) :=
  calls.mapM fun call => (call.answer kind items).attempt

variable {kind : ItemKind} {items : Fields}

namespace Flattening

variable {α β : Type}

theorem outcome_attempt (walk : Flattening α) (memo : Entries Fields) (run : Run) :
    walk.attempt.outcome memo run =
      (.ok (walk.outcome memo run).1, (walk.outcome memo run).2.1, (walk.outcome memo run).2.2) := rfl

theorem outcome_map (f : α → β) (walk : Flattening α) (memo : Entries Fields) (run : Run) :
    (f <$> walk).outcome memo run =
      (f <$> (walk.outcome memo run).1, (walk.outcome memo run).2.1, (walk.outcome memo run).2.2) := by
  rw [map_eq_pure_bind, outcome_bind]
  rcases walk.outcome memo run with ⟨fault | value, kept, after⟩ <;> rfl

end Flattening

/-! ### One call -/

def Call.plainly (kind : ItemKind) (items : Fields) : Call → Except Fault Answer
  | findParent key item => .parent <$> Lineage.findParent items key item
  | flatten key => .item <$> ascend kind items [] key
  | flattenEach => .items <$> ascendKeys kind items (Entries.keys items)

/-- From sound memory a call comes to what it comes to with none, keeps only what is flat, and counts what is to
be counted for the keys that it keeps. -/
theorem answer_recall (outlined : Outlined items) (call : Call) {memo : Entries Fields} (run : Run)
    (sound : Sound kind items memo) :
    ((call.answer kind items).outcome memo run).1 = call.plainly kind items ∧
      Sound kind items ((call.answer kind items).outcome memo run).2.1 ∧
      Counts kind items [] memo ((call.answer kind items).outcome memo run).2.1 run
        ((call.answer kind items).outcome memo run).2.2 := by
  cases call with
  | findParent key item =>
      have ran : ((Call.findParent key item).answer kind items).outcome memo run =
          (.parent <$> Lineage.findParent items key item, memo, run) := by
        rw [Call.answer, Flattening.outcome_bind, Flattening.outcome_lift]
        cases Lineage.findParent items key item <;> rfl
      rw [ran]
      exact ⟨rfl, sound, .refl [] memo run⟩
  | flatten key =>
      obtain ⟨same, soundAfter⟩ := flatten_recall outlined.object run sound (List.forall_mem_nil _)
      rw [Call.answer, Flattening.outcome_map]
      exact ⟨congrArg (Answer.item <$> ·) same, soundAfter, (counts_flatten rfl (.inr outlined)).1⟩
  | flattenEach =>
      obtain ⟨same, soundAfter⟩ := flattenKeys_recall outlined.object (Entries.keys items) run sound
      rw [Call.answer, Flattening.outcome_map]
      exact ⟨congrArg (Answer.items <$> ·) same, soundAfter, (counts_flattenKeys rfl (.inr outlined)).1⟩

/-! ### Many calls -/

private theorem outcome_session_cons (call : Call) (rest : List Call) (memo : Entries Fields) (run : Run) :
    (session kind items (call :: rest)).outcome memo run =
      match (call.answer kind items).outcome memo run with
      | (first, kept, after) =>
        match (session kind items rest).outcome kept after with
        | (.ok others, last, ended) => (.ok (first :: others), last, ended)
        | (.error fault, last, ended) => (.error fault, last, ended) := by
  rw [session, List.mapM_cons, Flattening.outcome_bind, Flattening.outcome_attempt]
  rcases (call.answer kind items).outcome memo run with ⟨first, kept, after⟩
  dsimp only
  rw [Flattening.outcome_bind, ← session]
  rcases (session kind items rest).outcome kept after with ⟨fault | others, last, ended⟩ <;> rfl

/-- Calls from sound memory come to what each comes to with none, and what is counted is what is to be counted
for the keys that they keep. -/
theorem session_recall (kind : ItemKind) (outlined : Outlined items) (calls : List Call) {memo : Entries Fields}
    (run : Run) (sound : Sound kind items memo) :
    ∃ kept after, (session kind items calls).outcome memo run =
      (.ok (calls.map (Call.plainly kind items)), kept, after) ∧
      Counts kind items [] memo kept run after := by
  induction calls generalizing memo run with
  | nil => exact ⟨memo, run, rfl, .refl [] memo run⟩
  | cons call rest ih =>
      obtain ⟨same, soundHere, here⟩ := answer_recall outlined call run sound
      rcases walked : (call.answer kind items).outcome memo run with ⟨first, middle, between⟩
      rw [walked] at same soundHere here
      obtain ⟨kept, after, ran, there⟩ := ih between soundHere
      refine ⟨kept, after, ?_, here.trans there⟩
      rw [outcome_session_cons, walked]
      dsimp only at same ⊢
      rw [ran, same, List.map_cons]

/-- Whatever was asked for before, and however it ended, each call answers as it does when it is the first one.
Over all calls, an item whose parent is nowhere is told of once at most, and no other item is. -/
theorem session_history (kind : ItemKind) (outlined : Outlined items) (calls : List Call) (run : Run) :
    ∃ answers kept after, (session kind items calls).outcome [] run = (.ok answers, kept, after) ∧
      (∀ other, answers = calls.map fun call => ((call.answer kind items).outcome [] other).1) ∧
      ∃ reported : List Text, reported.Nodup ∧ (∀ key ∈ reported, IsOrphan items key) ∧
        after.diagnostics = run.diagnostics.add {
          errors := reported.length
          unresolved := reported.map fun key => .noParent kind key (parentName items key) } := by
  obtain ⟨kept, after, ran, counts⟩ := session_recall kind outlined calls run Sound.nil
  obtain ⟨new, keys, _, counted⟩ := counts.counted
  have once : new.Nodup := by
    have distinct : (Entries.keys kept).Nodup := counts.distinct .nil
    rw [keys] at distinct
    exact distinct
  obtain ⟨reported, single, listed, orphaned⟩ := exists_orphans kind items once
  refine ⟨_, kept, after, ran, fun other => ?_, reported, single, fun key member => ((listed key).mp member).2,
    orphaned ▸ counted⟩
  exact List.map_congr_left fun call _ => ((answer_recall outlined call other Sound.nil).1).symm

/-- A ring beside an item whose parent is nowhere. -/
def ringAndStray : Fields := ("stray", .record [("extends", .text "nowhere")]) :: ring

private theorem outlined_ringAndStray : Outlined ringAndStray := by
  constructor
  · intro key value found
    have each : ∀ entry ∈ ringAndStray, entry.2.isObject = true := by decide
    exact each _ (Entries.mem_of_get? found)
  · intro key mark item found value given
    have member := Entries.mem_of_get? found
    simp only [ringAndStray, ring, Value.record, List.mem_cons, Prod.mk.injEq,
      List.not_mem_nil, or_false] at member
    rcases member with ⟨_, same⟩ | ⟨_, same⟩ | ⟨_, same⟩ <;> cases same <;> cases given
    rfl

/-- The fault of a ring is the same at the second time, and what stands beside the ring is told of once. -/
theorem session_history_ringAndStray :
    Outlined ringAndStray ∧
    ∃ stray fault each kept after,
      (session .object ringAndStray
        [.flatten "stray", .flatten "hen", .flattenEach, .flatten "stray", .flatten "hen"]).outcome [] {} =
          (.ok [stray, .error fault, each, stray, .error fault], kept, after) ∧
      fault.message? = some "Cyclic object extends chain: hen -> egg -> hen" ∧
      after.diagnostics.errors ≤ 1 := by
  obtain ⟨answers, kept, after, ran, told, reported, once, orphaned, counted⟩ :=
    session_history .object outlined_ringAndStray
      [.flatten "stray", .flatten "hen", .flattenEach, .flatten "stray", .flatten "hen"] {}
  have egg : ascend .object ringAndStray ["hen"] "egg" =
      .error (.integrity (.parentCycle ItemKind.object.name ["hen", "egg", "hen"])) := by
    have next : findParent ringAndStray "egg"
        (.object none [("extends", .text "hen"), ("profiles", .array [.text "host"])]) = .ok (some "hen") := rfl
    rw [ascend_of_object (by decide) rfl, if_neg (by decide), if_neg (by decide), next]
    dsimp only
    rw [ascend_waiting (by decide)]
    rfl
  have hen : ascend .object ringAndStray [] "hen" =
      .error (.integrity (.parentCycle ItemKind.object.name ["hen", "egg", "hen"])) := by
    have next : findParent ringAndStray "hen"
        (.object none [("extends", .text "egg"), ("attributes", .record [])]) = .ok (some "egg") := rfl
    rw [ascend_of_object List.not_mem_nil rfl, if_neg (by decide), if_neg (by decide), next]
    dsimp only
    rw [List.nil_append, egg]
  have answered (key : Text) : (((Call.flatten key).answer .object ringAndStray).outcome [] {}).1 =
      .item <$> ascend .object ringAndStray [] key := (answer_recall outlined_ringAndStray _ {} Sound.nil).1
  rw [told {}] at ran
  simp only [List.map_cons, List.map_nil, answered, hen] at ran
  refine ⟨outlined_ringAndStray, _, _, _, kept, after, ran, rfl, ?_⟩
  have among : reported ⊆ ["stray"] := by
    intro key member
    obtain ⟨mark, item, found, _, _, next⟩ := orphaned key member
    have listed := Entries.mem_of_get? found
    simp only [ringAndStray, ring, Value.record, List.mem_cons, Prod.mk.injEq,
      List.not_mem_nil, or_false] at listed
    rcases listed with ⟨rfl, same⟩ | ⟨rfl, same⟩ | ⟨rfl, same⟩ <;> cases same
    · exact List.mem_singleton.mpr rfl
    · cases next
    · cases next
  rw [counted]
  exact (Nat.zero_add _).trans_le (List.subperm_of_subset once among).length_le

end EventSchema.Lineage
