import EventSchema.Proofs.Lineage.Ancestry

/-!
The walk up the line of an item.

Whatever the walk returns is the flat form of the item, and it returns that form for every item whose
line can be flattened, from any items flattened before. So the order in which items are asked for
does not show in what they become.
-/

set_option autoImplicit false

namespace EventSchema.Lineage

variable {kind : ItemKind} {items : Fields}

namespace Flattening

variable {α β : Type}

/-- A sequence of walks that succeeds has succeeded at its first step. -/
theorem outcome_bind_ok {walk : Flattening α} {next : α → Flattening β} {memo kept : Entries Fields}
    {run after : Run} {result : β} (ran : outcome (walk >>= next) memo run = (.ok result, kept, after)) :
    ∃ value middle between, outcome walk memo run = (.ok value, middle, between) ∧
      outcome (next value) middle between = (.ok result, kept, after) := by
  rw [outcome_bind] at ran
  cases first : outcome walk memo run with
  | mk outcome rest =>
      obtain ⟨middle, between⟩ := rest
      rw [first] at ran
      cases outcome with
      | error fault => cases ran
      | ok value => exact ⟨value, middle, between, rfl, ran⟩

end Flattening

theorem given_of_findParent {key parent : Text} {mark : Option Nat} {item : Fields}
    (next : findParent items key (.object mark item) = .ok (some parent)) :
    Value.given (Entries.get? "extends" item) = true := by
  cases named : Entries.get? "extends" item with
  | none =>
      simp [findParent, Value.asFields, named, bind, Except.bind, pure, Except.pure] at next
  | some value =>
      cases true? : value.truthy with
      | true => exact true?
      | false =>
          simp [findParent, Value.asFields, named, true?, bind, Except.bind, pure,
            Except.pure] at next

theorem findParent_of_not_given (items : Fields) (key : Text) (mark : Option Nat) {item : Fields}
    (orphan : (!Value.given (Entries.get? "extends" item)) = true) :
    findParent items key (.object mark item) = .ok none := by
  cases named : Entries.get? "extends" item with
  | none => simp [findParent, Value.asFields, named, bind, Except.bind, pure, Except.pure]
  | some value =>
      rw [named] at orphan
      have silent : value.truthy = false := by simpa [Value.given] using orphan
      simp [findParent, Value.asFields, named, silent, bind, Except.bind, pure, Except.pure]

/-- The item under a key, flattened without what was kept before: what the walk does when it meets
the key for the first time. -/
def flattenNew (kind : ItemKind) (items : Fields) (way : List Text) (key : Text)
    (item : Fields) : Flattening Fields :=
  if Value.given (Entries.get? "_resolved" item) then pure item
  else if !Value.given (Entries.get? "extends" item) then liftM (standalone key item)
  else do
    match ← (liftM (findParent items key (Entries.orNull key items)) :
      Flattening (Option Text)) with
    | none =>
      (liftM (leaveUnresolved (.noParent kind key (Entries.orNull "extends" item))) :
        Flattening Unit)
      return resolved (← standalone key item)
    | some parent =>
      let ancestor ← flatten kind items (way ++ [key]) parent
      (liftM (note (.resolving kind key parent)) : Flattening Unit)
      return resolved (← descend kind key ancestor item)

theorem flatten_known {way : List Text} {key : Text} {memo : Entries Fields} {flat : Fields}
    (run : Run) (known : Entries.get? key memo = some flat) :
    (flatten kind items way key).outcome memo run = (.ok flat, memo, run) := by
  rw [flatten, Flattening.outcome_bind, Flattening.outcome_get]
  simp only [known]
  exact Flattening.outcome_pure flat memo run

/-- A key that is met for the first time is flattened and kept. -/
theorem flatten_new {way : List Text} {key : Text} {memo : Entries Fields} {mark : Option Nat}
    {item : Fields} (run : Run) (unknown : Entries.get? key memo = none) (fresh : key ∉ way)
    (found : Entries.get? key items = some (.object mark item)) :
    (flatten kind items way key).outcome memo run =
      (do
        let flat ← flattenNew kind items way key item
        modifyThe (Entries Fields) (Entries.put key flat)
        return flat : Flattening Fields).outcome memo run := by
  have present : key ∈ Entries.keys items := Entries.mem_keys_of_get? found
  have itself : Entries.orNull key items = .object mark item := by
    simp [Entries.orNull, Entries.getOr, found]
  rw [flatten, Flattening.outcome_bind, Flattening.outcome_get]
  simp only [unknown, dif_neg fresh, dif_pos present]
  rw [Flattening.outcome_bind, itself]
  simp only [Value.asFields, Flattening.outcome_lift, flattenNew, itself]
  split
  · rfl
  · split
    · rfl
    · rw [bind_assoc]
      congr 2
      funext parent?
      cases parent? with
      | none => simp only [bind_assoc, pure_bind]
      | some parent => simp only [bind_assoc, pure_bind]

/-- A key that is met for the first time is only flattened if it is not on the way already and has an
object under it. -/
theorem object_of_flatten {way : List Text} {key : Text} {memo kept : Entries Fields}
    {flat : Fields} {run after : Run} (unknown : Entries.get? key memo = none)
    (ran : (flatten kind items way key).outcome memo run = (.ok flat, kept, after)) :
    key ∉ way ∧ ∃ mark item, Entries.get? key items = some (.object mark item) := by
  rw [flatten, Flattening.outcome_bind, Flattening.outcome_get] at ran
  simp only [unknown] at ran
  by_cases waiting : key ∈ way
  · rw [dif_pos waiting, Flattening.outcome_throw] at ran
    cases ran
  · refine ⟨waiting, ?_⟩
    rw [dif_neg waiting] at ran
    by_cases present : key ∈ Entries.keys items
    · rw [dif_pos present] at ran
      obtain ⟨fields, middle, between, first, _⟩ := Flattening.outcome_bind_ok ran
      rw [Flattening.outcome_lift] at first
      injection first with itself _
      cases found : Entries.get? key items with
      | none => exact absurd present (Entries.get?_eq_none_iff.mp found)
      | some value =>
          rw [Entries.orNull, Entries.getOr, found, Option.getD_some] at itself
          cases value with
          | object mark item => exact ⟨mark, item, rfl⟩
          | null | bool _ | int _ | float _ | text _ | array _ =>
              simp [Value.asFields] at itself
    · rw [dif_neg present, Flattening.outcome_throw] at ran
      cases ran

/-- What the walk returns is the flat form of the item, and so is everything that it keeps. -/
theorem flatten_sound {way : List Text} {key : Text} {memo kept : Entries Fields} {flat : Fields}
    {run after : Run} (sound : Sound kind items memo)
    (ran : (flatten kind items way key).outcome memo run = (.ok flat, kept, after)) :
    Flat kind items key flat ∧ Sound kind items kept := by
  -- each step up leaves fewer keys that are not on the way
  induction left : ((Entries.keys items).filter (· ∉ way)).length using
    Nat.strongRecOn generalizing way key memo kept flat run after with
  | ind left ih =>
  cases known : Entries.get? key memo with
  | some before =>
      rw [flatten_known run known] at ran
      cases ran
      exact ⟨sound key flat known, sound⟩
  | none =>
      obtain ⟨fresh, mark, item, found⟩ := object_of_flatten known ran
      have present : key ∈ Entries.keys items := Entries.mem_keys_of_get? found
      have itself : Entries.orNull key items = .object mark item := by
        simp [Entries.orNull, Entries.getOr, found]
      rw [flatten_new run known fresh found] at ran
      obtain ⟨computed, middle, between, first, rest⟩ := Flattening.outcome_bind_ok ran
      have finish (flatHere : Flat kind items key computed) (soundHere : Sound kind items middle) :
          Flat kind items key flat ∧ Sound kind items kept := by
        rw [Flattening.outcome_bind, Flattening.outcome_modify] at rest
        cases rest
        exact ⟨flatHere, soundHere.put flatHere⟩
      unfold flattenNew at first
      by_cases marked : Value.given (Entries.get? "_resolved" item) = true
      · rw [if_pos marked, Flattening.outcome_pure] at first
        cases first
        refine finish ⟨item, [], .root found (Or.inl marked), ?_⟩ sound
        rw [inherit, if_pos marked]
      · rw [if_neg marked] at first
        by_cases orphan : (!Value.given (Entries.get? "extends" item)) = true
        · rw [if_pos orphan, Flattening.outcome_lift] at first
          have alone := findParent_of_not_given items key mark orphan
          injection first with own states
          cases states
          refine finish ⟨item, [], .root found (Or.inr alone), ?_⟩ sound
          rw [inherit, if_neg marked, if_pos orphan, own]
        · rw [if_neg orphan] at first
          obtain ⟨parent?, memo', run', looked, first⟩ := Flattening.outcome_bind_ok first
          rw [Flattening.outcome_lift, itself] at looked
          injection looked with parentIs states
          cases states
          cases parent? with
          | none =>
              obtain ⟨_, memo', run', reported, first⟩ := Flattening.outcome_bind_ok first
              rw [Flattening.outcome_act] at reported
              cases reported
              obtain ⟨own, memo', run', alone, first⟩ := Flattening.outcome_bind_ok first
              rw [Flattening.outcome_lift] at alone
              injection alone with alone states
              cases states
              rw [Flattening.outcome_pure] at first
              cases first
              refine finish ⟨item, [], .root found (Or.inr parentIs), ?_⟩ sound
              rw [inherit, if_neg marked, if_neg orphan, alone]
              rfl
          | some parent =>
              obtain ⟨ancestor, memo', run', above, first⟩ := Flattening.outcome_bind_ok first
              obtain ⟨⟨other, older, line, inherited⟩, soundAbove⟩ :=
                ih _ (left ▸ remaining_lt present fresh) sound above rfl
              obtain ⟨_, memo', run', reported, first⟩ := Flattening.outcome_bind_ok first
              rw [Flattening.outcome_act] at reported
              cases reported
              obtain ⟨own, memo', run', descended, first⟩ := Flattening.outcome_bind_ok first
              rw [Flattening.outcome_lift] at descended
              injection descended with descended states
              cases states
              rw [Flattening.outcome_pure] at first
              cases first
              refine finish ⟨item, (parent, other) :: older,
                .child found (Bool.eq_false_iff.mpr marked) parentIs line, ?_⟩ soundAbove
              rw [inherit, inherited]
              change resolved <$> descend kind key ancestor item = _
              rw [descended]
              rfl

private theorem flatten_of_new {way : List Text} {key : Text} {memo middle : Entries Fields}
    {mark : Option Nat} {item flat : Fields} {run between : Run}
    (unknown : Entries.get? key memo = none) (fresh : key ∉ way)
    (found : Entries.get? key items = some (.object mark item))
    (ran : (flattenNew kind items way key item).outcome memo run = (.ok flat, middle, between)) :
    (flatten kind items way key).outcome memo run =
      (.ok flat, Entries.put key flat middle, between) := by
  rw [flatten_new run unknown fresh found, Flattening.outcome_bind, ran]
  rfl

theorem flatten_complete {line : List (Text × Fields)} (ancestry : Ancestry items line)
    {way : List Text} {key : Text} {item flat : Fields} {above : List (Text × Fields)}
    {memo : Entries Fields} (run : Run) (front : line = (key, item) :: above)
    (sound : Sound kind items memo) (apart : ∀ entry ∈ line, entry.1 ∉ way)
    (computed : inherit kind line = .ok flat) :
    ∃ kept after, (flatten kind items way key).outcome memo run = (.ok flat, kept, after) := by
  induction ancestry generalizing way key item flat above memo run with
  | @root own mark fields found start =>
      cases front
      cases known : Entries.get? own memo with
      | some before =>
          have flatHere : Flat kind items own flat := ⟨fields, [], .root found start, computed⟩
          rw [Flat.unique flatHere (sound own before known)]
          exact ⟨memo, run, flatten_known run known⟩
      | none =>
          have fresh : own ∉ way := apart _ (List.mem_cons_self ..)
          rw [inherit] at computed
          by_cases marked : Value.given (Entries.get? "_resolved" fields) = true
          · rw [if_pos marked] at computed
            cases computed
            have ended : (flattenNew kind items way own fields).outcome memo run =
                (.ok fields, memo, run) := by
              rw [flattenNew, if_pos marked, Flattening.outcome_pure]
            exact ⟨_, _, flatten_of_new known fresh found ended⟩
          · rw [if_neg marked] at computed
            by_cases orphan : (!Value.given (Entries.get? "extends" fields)) = true
            · rw [if_pos orphan] at computed
              have ended : (flattenNew kind items way own fields).outcome memo run =
                  (.ok flat, memo, run) := by
                rw [flattenNew, if_neg marked, if_pos orphan, Flattening.outcome_lift, computed]
              exact ⟨_, _, flatten_of_new known fresh found ended⟩
            · rw [if_neg orphan] at computed
              have alone := start.resolve_left marked
              obtain ⟨standing, ran, same⟩ := map_eq_ok.mp computed
              have itself : Entries.orNull own items = .object mark fields := by
                simp [Entries.orNull, Entries.getOr, found]
              have ended : (flattenNew kind items way own fields).outcome memo run =
                  (.ok flat, memo, ((leaveUnresolved (.noParent kind own
                    (Entries.orNull "extends" fields))).outcome run).2) := by
                rw [flattenNew, if_neg marked, if_neg orphan, Flattening.outcome_bind,
                  Flattening.outcome_lift, itself, alone, ← same]
                simp only [Flattening.outcome_bind, Flattening.outcome_act,
                  Flattening.outcome_lift, ran]
                rfl
              exact ⟨_, _, flatten_of_new known fresh found ended⟩
  | @child own mark fields parent elders found unmarked next older ih =>
      cases front
      have line : Ancestry items ((own, fields) :: parent :: elders) :=
        .child found unmarked next older
      cases known : Entries.get? own memo with
      | some before =>
          have flatHere : Flat kind items own flat := ⟨fields, parent :: elders, line, computed⟩
          rw [Flat.unique flatHere (sound own before known)]
          exact ⟨memo, run, flatten_known run known⟩
      | none =>
          have fresh : own ∉ way := apart _ (List.mem_cons_self ..)
          have marked : ¬Value.given (Entries.get? "_resolved" fields) = true :=
            Bool.eq_false_iff.mp unmarked
          have named : ¬(!Value.given (Entries.get? "extends" fields)) = true := by
            rw [given_of_findParent next]
            exact Bool.false_ne_true
          rw [inherit] at computed
          obtain ⟨ancestor, inherited, rest⟩ := bind_eq_ok.mp computed
          obtain ⟨taken, descended, same⟩ := map_eq_ok.mp rest
          -- the keys above are not on the way, and the key of the child is not among them
          have apartAbove : ∀ entry ∈ parent :: elders, entry.1 ∉ way ++ [own] := by
            intro entry member waiting
            rcases List.mem_append.mp waiting with before | last
            · exact apart entry (List.mem_cons_of_mem _ member) before
            · have itself : own ∈ (parent :: elders).map Prod.fst :=
                List.mem_map.mpr ⟨entry, member, List.mem_singleton.mp last⟩
              exact line.front_fresh itself
          obtain ⟨kept, after, ran⟩ := ih run rfl sound apartAbove inherited
          have itself : Entries.orNull own items = .object mark fields := by
            simp [Entries.orNull, Entries.getOr, found]
          have ended : (flattenNew kind items way own fields).outcome memo run =
              (.ok flat, kept, ((note (.resolving kind own parent.1)).outcome after).2) := by
            rw [flattenNew, if_neg marked, if_neg named, Flattening.outcome_bind,
              Flattening.outcome_lift, itself, next, ← same]
            simp only [Flattening.outcome_bind, ran, Flattening.outcome_act,
              Flattening.outcome_lift, descended]
            rfl
          exact ⟨_, _, flatten_of_new known fresh found ended⟩

/-- A sequence of requests for items whose lines can be flattened gives the flat form of each, whatever
the order of the requests. -/
theorem flatten_requests {requests : List Text} {memo : Entries Fields} (run : Run)
    (sound : Sound kind items memo) (flats : ∀ key ∈ requests, ∃ flat, Flat kind items key flat) :
    ∃ results kept after,
      (requests.mapM (flatten kind items [])).outcome memo run = (.ok results, kept, after) ∧
        List.Forall₂ (Flat kind items) requests results := by
  induction requests generalizing memo run with
  | nil => exact ⟨[], memo, run, rfl, .nil⟩
  | cons key rest ih =>
      obtain ⟨flat, item, above, line, computed⟩ := flats key (List.mem_cons_self ..)
      obtain ⟨kept, after, ran⟩ := flatten_complete line run rfl sound
        (fun entry _ => List.not_mem_nil) computed
      obtain ⟨flatHere, soundHere⟩ := flatten_sound sound ran
      obtain ⟨results, last, ended, others, each⟩ := ih after soundHere
        (fun other member => flats other (List.mem_cons_of_mem _ member))
      refine ⟨flat :: results, last, ended, ?_, .cons flatHere each⟩
      rw [List.mapM_cons, Flattening.outcome_bind, ran]
      simp only [Flattening.outcome_bind, others]
      rfl

/-! ### All items in one pass -/

theorem outcome_flattenAll (kind : ItemKind) (items : Fields) (run : Run) :
    (flattenAll kind items).outcome run =
      (((flattenEach kind items).outcome [] run).1, ((flattenEach kind items).outcome [] run).2.2) :=
  rfl

private theorem mapM_flatten_sound {keys : List Text} {memo kept : Entries Fields} {flats : Entries Fields}
    {run after : Run} (sound : Sound kind items memo)
    (ran : (keys.mapM fun key => do return (key, ← flatten kind items [] key) :
      Flattening (Entries Fields)).outcome memo run = (.ok flats, kept, after)) :
    List.Forall₂ (fun key flat => flat.1 = key ∧ Flat kind items key flat.2) keys flats := by
  induction keys generalizing memo run flats with
  | nil =>
      rw [List.mapM_nil, Flattening.outcome_pure] at ran
      cases ran
      exact .nil
  | cons key rest ih =>
      rw [List.mapM_cons] at ran
      obtain ⟨entry, middle, between, first, later⟩ := Flattening.outcome_bind_ok ran
      obtain ⟨flat, middle', between', walked, same⟩ := Flattening.outcome_bind_ok first
      rw [Flattening.outcome_pure] at same
      cases same
      obtain ⟨flatHere, soundHere⟩ := flatten_sound sound walked
      obtain ⟨others, last, ended, others', same⟩ := Flattening.outcome_bind_ok later
      rw [Flattening.outcome_pure] at same
      cases same
      exact .cons ⟨rfl, flatHere⟩ (ih soundHere others')

/-- A pass over all items gives the flat form of each under its key. -/
theorem flattenAll_ok {flats : Entries Fields} (ran : (flattenAll kind items).Yields flats) :
    Entries.Related (fun key _ flat => Flat kind items key flat) items flats := by
  obtain ⟨run, after, ran⟩ := ran
  rw [outcome_flattenAll] at ran
  cases walked : (flattenEach kind items).outcome [] run with
  | mk result rest =>
      obtain ⟨kept, last⟩ := rest
      rw [walked] at ran
      cases ran
      have each := mapM_flatten_sound Sound.nil walked
      exact List.forall₂_map_left_iff.mp each

end EventSchema.Lineage
