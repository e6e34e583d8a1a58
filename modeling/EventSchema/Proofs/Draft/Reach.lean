import EventSchema.Draft.Profiles
import EventSchema.Proofs.Draft.Attributes
import Mathlib.Logic.Relation

/-!
Which objects a walk along attributes reaches.

A walk ends with exactly the objects that are reachable from the attributes it starts with, besides
those it is told not to enter: every object that it enters is reachable, and it leaves no object that
one of those refers to.
-/

set_option autoImplicit false

namespace EventSchema.Draft

structure Leads (draft : Draft) (entry : Text × Value) (key : Text) : Prop where
  type : objectTypeOf draft entry = .ok (.text key)
  named : (Value.text key).truthy = true
  present : Entries.has key draft.objects = true

def Refers (draft : Draft) (key other : Text) : Prop :=
  ∃ object, Entries.get? key draft.objects = some object ∧
    ∃ entry ∈ Entries.attributes object, Leads draft entry other

theorem Leads.unique {draft : Draft} {entry : Text × Value} {key other : Text}
    (leads : Leads draft entry key) (found : objectTypeOf draft entry = .ok (.text other)) :
    key = other := by
  have same := leads.type.symm.trans found
  rw [Except.ok.injEq, Value.text.injEq] at same
  exact same

structure Walked (draft : Draft) (before : Entries Value) (todo : List (Text × Value))
    (after : Entries Value) : Prop where
  kept : ∀ key, Entries.has key before = true → Entries.has key after = true
  entered : ∀ entry ∈ todo, ∀ key, Leads draft entry key → Entries.has key after = true
  closed : ∀ key, Entries.has key after = true → Entries.has key before = false →
    ∀ other, Refers draft key other → Entries.has other after = true
  sound : ∀ entry ∈ after, entry ∈ before ∨
    ∃ object, Entries.get? entry.1 draft.objects = some object ∧
      entry.2 = Entries.orNull "profiles" object ∧
      ∃ first ∈ todo, ∃ key, Leads draft first key ∧
        Relation.ReflTransGen (Refers draft) key entry.1

namespace Walked

variable {draft : Draft} {before after : Entries Value} {entry : Text × Value}
  {rest : List (Text × Value)}

theorem done (draft : Draft) (before : Entries Value) : Walked draft before [] before where
  kept _ known := known
  entered _ none := absurd none List.not_mem_nil
  closed key known fresh := by
    rw [known] at fresh
    cases fresh
  sound _ member := Or.inl member

/-- An attribute that leads to no object that is not reached yet is passed over. -/
theorem skip (walked : Walked draft before rest after)
    (known : ∀ key, Leads draft entry key → Entries.has key before = true) :
    Walked draft before (entry :: rest) after where
  kept := walked.kept
  entered := by
    intro other member key leads
    rcases List.mem_cons.mp member with here | later
    · exact walked.kept key (known key (here ▸ leads))
    · exact walked.entered other later key leads
  closed := walked.closed
  sound := by
    intro other member
    rcases walked.sound other member with old | ⟨object, found, profiles, first, later, rest⟩
    · exact Or.inl old
    · exact Or.inr ⟨object, found, profiles, first, List.mem_cons_of_mem _ later, rest⟩

/-- An object that is not reached yet is entered: its attributes come first. -/
theorem enter {key : Text} {object : Fields} (leads : Leads draft entry key)
    (found : Entries.get? key draft.objects = some object)
    (walked : Walked draft (Entries.put key (Entries.orNull "profiles" object) before)
      (Entries.attributes object ++ rest) after) : Walked draft before (entry :: rest) after := by
  have written (other : Text) :
      Entries.has other (Entries.put key (Entries.orNull "profiles" object) before) =
        (decide (other = key) || Entries.has other before) := by
    rw [Entries.has, Entries.get?_put]
    by_cases same : other = key <;> simp [same, Entries.has]
  have itself : Entries.has key after = true := by
    apply walked.kept
    rw [written, decide_eq_true rfl, Bool.true_or]
  constructor
  · intro other known
    apply walked.kept
    rw [written, known, Bool.or_true]
  · intro other member target leadsOn
    rcases List.mem_cons.mp member with here | later
    · rw [here] at leadsOn
      rw [leadsOn.unique leads.type]
      exact itself
    · exact walked.entered other (List.mem_append_right _ later) target leadsOn
  · intro other reached unknown target refers
    by_cases same : other = key
    · obtain ⟨object', found', first, member, leadsOn⟩ := refers
      rw [same, found, Option.some.injEq] at found'
      rw [← found'] at member
      exact walked.entered first (List.mem_append_left _ member) target leadsOn
    · refine walked.closed other reached ?_ target refers
      rw [written, decide_eq_false same, unknown, Bool.false_or]
  · intro other member
    rcases walked.sound other member with old | ⟨object', found', profiles, first, origin, target, leadsOn, way⟩
    · rcases Entries.mem_of_mem_put old with new | older
      · right
        rw [new]
        exact ⟨object, found, rfl, entry, List.mem_cons_self .., key, leads, .refl⟩
      · exact Or.inl older
    · right
      refine ⟨object', found', profiles, ?_⟩
      rcases List.mem_append.mp origin with inside | later
      · refine ⟨entry, List.mem_cons_self .., key, leads, ?_⟩
        exact .head ⟨object, found, first, inside, leadsOn⟩ way
      · exact ⟨first, List.mem_cons_of_mem _ later, target, leadsOn, way⟩

end Walked

/-- A walk that ends has walked along all attributes. -/
theorem reach_ok {draft : Draft} {before after : Entries Value} {todo : List (Text × Value)}
    (ran : reach draft before todo = .ok after) : Walked draft before todo after := by
  induction before, todo using reach.induct draft with
  | case1 before =>
      rw [reach, Except.ok.injEq] at ran
      exact ran ▸ Walked.done draft before
  | case2 before entry rest passed opened =>
      rw [reach] at ran
      obtain ⟨type, found, ran⟩ := bind_eq_ok.mp ran
      have leadsTo {key : Text} (leads : Leads draft entry key) : type = .text key := by
        rw [leads.type, Except.ok.injEq] at found
        exact found.symm
      split at ran
      · rename_i untold
        refine (passed ran).skip fun key leads => ?_
        rw [leadsTo leads, leads.named] at untold
        cases untold
      · rename_i told
        split at ran
        · rename_i key
          have same {other : Text} (leads : Leads draft entry other) : other = key := by
            exact (Value.text.inj (leadsTo leads)).symm
          split at ran
          · rename_i known
            exact (passed ran).skip fun other leads => (same leads).symm ▸ known
          · rename_i fresh
            split at ran
            · rename_i present
              obtain ⟨object, held⟩ := Option.isSome_iff_exists.mp present
              dsimp only at ran
              split at ran
              · cases ran
              · rename_i attributes read
                have own := attributes_of_ok read
                have walked := opened key fresh present attributes read ran
                rw [held, Option.getD_some] at own walked
                rw [← own] at walked
                refine walked.enter ⟨found, ?_, present⟩ held
                rw [← Bool.not_eq_false]
                exact fun empty => told (by rw [empty]; rfl)
            · rename_i absent
              refine (passed ran).skip fun other leads => ?_
              exact absurd (same leads ▸ leads.present) absent
        · rename_i other
          split at ran
          · refine (passed ran).skip fun key leads => ?_
            exact absurd (leadsTo leads) (other key)
          · cases ran

end EventSchema.Draft
