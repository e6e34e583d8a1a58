import EventSchema.Proofs.Lineage.Walk

/-!
What a walk recalls.

A walk flattens an item from what it kept of those above it. Whatever it kept, it comes to what the way up
alone comes to: the same item, or the same fault. For what is kept has a line, which meets no key that waits
for it, since no item is its own ancestor.
-/

set_option autoImplicit false

namespace EventSchema.Lineage

variable {kind : ItemKind} {items : Fields}

def Leads (items : Fields) (child parent : Text) : Prop :=
  ∃ mark item, Entries.get? child items = some (.object mark item) ∧
    Value.given (Entries.get? "_resolved" item) = false ∧
    findParent items child (.object mark item) = .ok (some parent)

def ascend (kind : ItemKind) (items : Fields) (way : List Text) (key : Text) : Except Fault Fields :=
  if _ : key ∈ way then
    .error (.integrity (.parentCycle kind.name (way.dropWhile (· ≠ key) ++ [key])))
  else if _ : key ∈ Entries.keys items then do
    let item := Entries.orNull key items
    let fields ← item.asFields
    if Value.given (Entries.get? "_resolved" fields) then return fields
    else if !Value.given (Entries.get? "extends" fields) then standalone key fields
    else
      match ← findParent items key item with
      | none => resolved <$> standalone key fields
      | some parent => do
        let ancestor ← ascend kind items (way ++ [key]) parent
        resolved <$> descend kind key ancestor fields
  else .error (.misuse .key)
termination_by ((Entries.keys items).filter (· ∉ way)).length
decreasing_by exact remaining_lt (by assumption) (by assumption)

theorem orNull_of_get? {key : Text} {value : Value} (found : Entries.get? key items = some value) :
    Entries.orNull key items = value := by
  rw [Entries.orNull, Entries.getOr, found, Option.getD_some]

theorem ascend_waiting {way : List Text} {key : Text} (waiting : key ∈ way) :
    ascend kind items way key =
      .error (.integrity (.parentCycle kind.name (way.dropWhile (· ≠ key) ++ [key]))) := by
  rw [ascend, dif_pos waiting]

theorem ascend_absent {way : List Text} {key : Text} (fresh : key ∉ way) (absent : Entries.get? key items = none) :
    ascend kind items way key = .error (.misuse .key) := by
  rw [ascend, dif_neg fresh, dif_neg (Entries.get?_eq_none_iff.mp absent)]

theorem ascend_of_object {way : List Text} {key : Text} {mark : Option Nat} {item : Fields} (fresh : key ∉ way)
    (found : Entries.get? key items = some (.object mark item)) :
    ascend kind items way key =
      if Value.given (Entries.get? "_resolved" item) then .ok item
      else if !Value.given (Entries.get? "extends" item) then standalone key item
      else match findParent items key (.object mark item) with
        | .error fault => .error fault
        | .ok none => resolved <$> standalone key item
        | .ok (some parent) =>
          match ascend kind items (way ++ [key]) parent with
          | .error fault => .error fault
          | .ok ancestor => resolved <$> descend kind key ancestor item := by
  rw [ascend, dif_neg fresh, dif_pos (Entries.mem_keys_of_get? found)]
  simp only [orNull_of_get? found, Value.asFields, ok_bind]
  split
  · rfl
  · split
    · rfl
    · cases findParent items key (.object mark item) with
      | error fault => rfl
      | ok parent? =>
          cases parent? with
          | none => rfl
          | some parent =>
              simp only [ok_bind]
              cases ascend kind items (way ++ [key]) parent <;> rfl

/-- On a way that does not meet the line of an item, nothing but the line matters. -/
theorem ascend_of_ancestry {line : List (Text × Fields)} (ancestry : Ancestry items line) {way : List Text}
    {key : Text} {item : Fields} {above : List (Text × Fields)} (front : line = (key, item) :: above)
    (apart : ∀ entry ∈ line, entry.1 ∉ way) : ascend kind items way key = inherit kind line := by
  induction ancestry generalizing way key item above with
  | @root own mark fields found start =>
      cases front
      rw [ascend_of_object (apart _ (List.mem_cons_self ..)) found, inherit]
      by_cases marked : Value.given (Entries.get? "_resolved" fields) = true
      · rw [if_pos marked, if_pos marked]
      · rw [if_neg marked, if_neg marked, start.resolve_left marked]
  | @child own mark fields parent elders found unmarked next older ih =>
      cases front
      have line : Ancestry items ((own, fields) :: parent :: elders) := .child found unmarked next older
      have apartAbove : ∀ entry ∈ parent :: elders, entry.1 ∉ way ++ [own] := by
        intro entry member waiting
        rcases List.mem_append.mp waiting with before | last
        · exact apart entry (List.mem_cons_of_mem _ member) before
        · exact line.front_fresh (List.mem_map.mpr ⟨entry, member, List.mem_singleton.mp last⟩)
      rw [ascend_of_object (apart _ (List.mem_cons_self ..)) found, inherit, if_neg (by rw [unmarked]; decide),
        if_neg (by rw [given_of_findParent next]; decide), next]
      dsimp only
      rw [ih rfl apartAbove]
      cases inherit kind (parent :: elders) <;> rfl

private theorem Ancestry.mem_of_leads {line : List (Text × Fields)} (ancestry : Ancestry items line) {key other : Text}
    {item : Fields} {above : List (Text × Fields)} (front : line = (key, item) :: above)
    (leads : Relation.TransGen (Leads items) key other) : other ∈ above.map Prod.fst := by
  induction ancestry generalizing key item above with
  | @root own mark fields found start =>
      cases front
      obtain ⟨parent, ⟨mark', fields', found', unmarked, next⟩, _⟩ := Relation.TransGen.head'_iff.mp leads
      rw [found] at found'
      cases found'
      rcases start with marked | alone
      · rw [marked] at unmarked
        cases unmarked
      · rw [alone] at next
        cases next
  | @child own mark fields parent elders found unmarked next older ih =>
      cases front
      obtain ⟨next', ⟨mark', fields', found', _, next''⟩, rest⟩ := Relation.TransGen.head'_iff.mp leads
      rw [found] at found'
      cases found'
      rw [next] at next''
      cases next''
      rcases Relation.reflTransGen_iff_eq_or_transGen.mp rest with same | further
      · rw [same]
        exact List.mem_cons_self ..
      · exact List.mem_cons_of_mem _ (ih rfl further)

theorem Ancestry.irrefl {key : Text} {item : Fields} {above : List (Text × Fields)}
    (ancestry : Ancestry items ((key, item) :: above)) : ¬Relation.TransGen (Leads items) key key :=
  fun leads => ancestry.front_fresh (ancestry.mem_of_leads rfl leads)

theorem Ancestry.apart {key : Text} {item : Fields} {above : List (Text × Fields)}
    (ancestry : Ancestry items ((key, item) :: above)) {way : List Text}
    (leads : ∀ below ∈ way, Relation.TransGen (Leads items) below key) :
    ∀ entry ∈ (key, item) :: above, entry.1 ∉ way := by
  intro entry member waiting
  obtain ⟨younger, older, split⟩ := List.append_of_mem member
  have passed := (Ancestry.suffix younger (split ▸ ancestry)).mem_of_leads rfl (leads _ waiting)
  cases younger with
  | nil =>
      cases split
      exact ancestry.front_fresh passed
  | cons first others =>
      obtain ⟨_, rfl⟩ := List.cons.inj split
      refine ancestry.front_fresh ?_
      change key ∈ (others ++ entry :: older).map Prod.fst
      rw [List.map_append]
      exact List.mem_append_right _ (List.mem_cons_of_mem _ passed)

/-! ### Steps of the walk -/

/-- A key that is met for the first time is flattened, and kept if that ended well. -/
theorem outcome_flatten {way : List Text} {key : Text} {memo : Entries Fields} {mark : Option Nat}
    {item : Fields} (run : Run) (unknown : Entries.get? key memo = none) (fresh : key ∉ way)
    (found : Entries.get? key items = some (.object mark item)) :
    (flatten kind items way key).outcome memo run =
      match (flattenNew kind items way key item).outcome memo run with
      | (.ok flat, kept, after) => (.ok flat, Entries.put key flat kept, after)
      | (.error fault, kept, after) => (.error fault, kept, after) := by
  rw [flatten_new run unknown fresh found, Flattening.outcome_bind]
  rcases (flattenNew kind items way key item).outcome memo run with ⟨_ | flat, kept, after⟩ <;> rfl

theorem outcome_flattenNew {way : List Text} {key : Text} {memo : Entries Fields} {mark : Option Nat}
    {item : Fields} (run : Run) (found : Entries.get? key items = some (.object mark item)) :
    (flattenNew kind items way key item).outcome memo run =
      if Value.given (Entries.get? "_resolved" item) then (.ok item, memo, run)
      else if !Value.given (Entries.get? "extends" item) then (standalone key item, memo, run)
      else match findParent items key (.object mark item) with
        | .error fault => (.error fault, memo, run)
        | .ok none => (resolved <$> standalone key item, memo,
            ((leaveUnresolved (.noParent kind key (Entries.orNull "extends" item))).outcome run).2)
        | .ok (some parent) =>
          match (flatten kind items (way ++ [key]) parent).outcome memo run with
          | (.error fault, kept, after) => (.error fault, kept, after)
          | (.ok ancestor, kept, after) =>
            (resolved <$> descend kind key ancestor item, kept,
              ((note (.resolving kind key parent)).outcome after).2) := by
  unfold flattenNew
  split
  · rfl
  · split
    · rfl
    · rw [Flattening.outcome_bind, Flattening.outcome_lift, orNull_of_get? found]
      cases findParent items key (.object mark item) with
      | error fault => rfl
      | ok parent? =>
          cases parent? with
          | none =>
              simp only [Flattening.outcome_bind, Flattening.outcome_act, Flattening.outcome_lift]
              cases standalone key item <;> rfl
          | some parent =>
              simp only [Flattening.outcome_bind]
              rcases (flatten kind items (way ++ [key]) parent).outcome memo run with ⟨_ | ancestor, kept, after⟩
              · rfl
              · simp only [Flattening.outcome_act, Flattening.outcome_lift]
                cases descend kind key ancestor item <;> rfl

/-- A way that is walked again, or from a key that is nowhere, leaves everything as it is. -/
theorem outcome_flatten_waiting {way : List Text} {key : Text} {memo : Entries Fields} (run : Run)
    (unknown : Entries.get? key memo = none) (waiting : key ∈ way) :
    (flatten kind items way key).outcome memo run = (ascend kind items way key, memo, run) := by
  rw [flatten, Flattening.outcome_bind, Flattening.outcome_get, ascend_waiting waiting]
  simp only [unknown, dif_pos waiting]
  rfl

theorem outcome_flatten_absent {way : List Text} {key : Text} {memo : Entries Fields} (run : Run)
    (unknown : Entries.get? key memo = none) (fresh : key ∉ way) (absent : Entries.get? key items = none) :
    (flatten kind items way key).outcome memo run = (ascend kind items way key, memo, run) := by
  rw [flatten, Flattening.outcome_bind, Flattening.outcome_get, ascend_absent fresh absent]
  simp only [unknown, dif_neg fresh, dif_neg (Entries.get?_eq_none_iff.mp absent)]
  rfl

/-! ### What was kept does not show -/

/-- An item that is met for the first time comes to what the way up alone comes to if its parent does. -/
theorem flattenNew_recall {way : List Text} {key : Text} {mark : Option Nat} {item : Fields} {memo : Entries Fields}
    (run : Run) (sound : Sound kind items memo) (fresh : key ∉ way)
    (found : Entries.get? key items = some (.object mark item))
    (above : ∀ parent, Leads items key parent →
      ((flatten kind items (way ++ [key]) parent).outcome memo run).1 = ascend kind items (way ++ [key]) parent ∧
        Sound kind items ((flatten kind items (way ++ [key]) parent).outcome memo run).2.1) :
    ((flattenNew kind items way key item).outcome memo run).1 = ascend kind items way key ∧
      Sound kind items ((flattenNew kind items way key item).outcome memo run).2.1 := by
  rw [outcome_flattenNew run found, ascend_of_object fresh found]
  split
  · exact ⟨rfl, sound⟩
  · rename_i unmarked
    split
    · exact ⟨rfl, sound⟩
    · cases next : findParent items key (.object mark item) with
      | error fault => exact ⟨rfl, sound⟩
      | ok parent? =>
          cases parent? with
          | none => exact ⟨rfl, sound⟩
          | some parent =>
              obtain ⟨same, kept⟩ := above parent ⟨mark, item, found, Bool.eq_false_iff.mpr unmarked, next⟩
              dsimp only
              rcases walked : (flatten kind items (way ++ [key]) parent).outcome memo run with
                ⟨fault | ancestor, _, _⟩
              · rw [walked] at same kept
                rw [← same]
                exact ⟨rfl, kept⟩
              · rw [walked] at same kept
                rw [← same]
                exact ⟨rfl, kept⟩

/-- From any sound memory a walk comes to what the way up alone comes to, and what it keeps is sound,
whether it ended well or not. -/
theorem flatten_recall (objects : ∀ key value, Entries.get? key items = some value → value.isObject = true)
    {way : List Text} {key : Text} {memo : Entries Fields} (run : Run) (sound : Sound kind items memo)
    (leads : ∀ below ∈ way, Relation.TransGen (Leads items) below key) :
    ((flatten kind items way key).outcome memo run).1 = ascend kind items way key ∧
      Sound kind items ((flatten kind items way key).outcome memo run).2.1 := by
  -- each step up leaves fewer keys that are not on the way
  induction left : ((Entries.keys items).filter (· ∉ way)).length using
    Nat.strongRecOn generalizing way key memo run with
  | ind left ih =>
  cases known : Entries.get? key memo with
  | some flat =>
      obtain ⟨item, above, line, computed⟩ := sound key flat known
      rw [flatten_known run known, ascend_of_ancestry line rfl (line.apart leads), computed]
      exact ⟨rfl, sound⟩
  | none =>
      by_cases waiting : key ∈ way
      · rw [outcome_flatten_waiting run known waiting]
        exact ⟨rfl, sound⟩
      cases found : Entries.get? key items with
      | none =>
          rw [outcome_flatten_absent run known waiting found]
          exact ⟨rfl, sound⟩
      | some value =>
          obtain ⟨mark, item, rfl⟩ : ∃ mark item, value = .object mark item := by
            have object := objects key value found
            cases value with
            | object mark item => exact ⟨mark, item, rfl⟩
            | null | bool _ | int _ | float _ | text _ | array _ => cases object
          have fewer := remaining_lt (Entries.mem_keys_of_get? found) waiting
          have same := flattenNew_recall run sound waiting found fun parent up =>
            ih _ (left ▸ fewer) run sound (fun below member => by
              rcases List.mem_append.mp member with before | last
              · exact (leads below before).tail up
              · exact List.mem_singleton.mp last ▸ .single up) rfl
          have ended : (flatten kind items way key).outcome memo run = _ :=
            outcome_flatten run known waiting found
          rcases walked : (flattenNew kind items way key item).outcome memo run with ⟨fault | flat, kept, after⟩
          · rw [walked] at same ended
            rw [ended]
            exact same
          · rw [walked] at same ended
            rw [ended]
            exact ⟨same.1, (flatten_sound sound ended).2⟩

/-! ### Keys flattened one after another -/

abbrev flattenKeys (kind : ItemKind) (items : Fields) (keys : List Text) : Flattening (Entries Fields) :=
  keys.mapM fun key => do return (key, ← flatten kind items [] key)

theorem outcome_flattenKeys_cons (key : Text) (rest : List Text) (memo : Entries Fields) (run : Run) :
    (flattenKeys kind items (key :: rest)).outcome memo run =
      match (flatten kind items [] key).outcome memo run with
      | (.error fault, kept, after) => (.error fault, kept, after)
      | (.ok flat, kept, after) =>
        match (flattenKeys kind items rest).outcome kept after with
        | (.error fault, last, ended) => (.error fault, last, ended)
        | (.ok flats, last, ended) => (.ok ((key, flat) :: flats), last, ended) := by
  rw [flattenKeys, List.mapM_cons]
  simp only [Flattening.outcome_bind]
  rcases (flatten kind items [] key).outcome memo run with ⟨fault | flat, kept, after⟩
  · rfl
  · dsimp only [Flattening.outcome_pure]
    rw [flattenKeys]
    rcases (rest.mapM fun key => do return (key, ← flatten kind items [] key) :
      Flattening (Entries Fields)).outcome kept after with ⟨fault | flats, last, ended⟩ <;> rfl

def ascendKeys (kind : ItemKind) (items : Fields) (keys : List Text) : Except Fault (Entries Fields) :=
  keys.mapM fun key => (key, ·) <$> ascend kind items [] key

theorem ascendKeys_cons (key : Text) (rest : List Text) :
    ascendKeys kind items (key :: rest) =
      match ascend kind items [] key with
      | .error fault => .error fault
      | .ok flat => match ascendKeys kind items rest with
        | .error fault => .error fault
        | .ok flats => .ok ((key, flat) :: flats) := by
  rw [ascendKeys, List.mapM_cons]
  cases ascend kind items [] key with
  | error fault => rfl
  | ok flat =>
      change (ascendKeys kind items rest >>= fun flats => pure ((key, flat) :: flats)) = _
      cases ascendKeys kind items rest <;> rfl

theorem flattenKeys_recall (objects : ∀ key value, Entries.get? key items = some value → value.isObject = true)
    (keys : List Text) {memo : Entries Fields} (run : Run) (sound : Sound kind items memo) :
    ((flattenKeys kind items keys).outcome memo run).1 = ascendKeys kind items keys ∧
      Sound kind items ((flattenKeys kind items keys).outcome memo run).2.1 := by
  induction keys generalizing memo run with
  | nil => exact ⟨rfl, sound⟩
  | cons key rest ih =>
      obtain ⟨same, kept⟩ : ((flatten kind items [] key).outcome memo run).1 = ascend kind items [] key ∧
          Sound kind items ((flatten kind items [] key).outcome memo run).2.1 :=
        flatten_recall objects run sound (List.forall_mem_nil _)
      rw [outcome_flattenKeys_cons, ascendKeys_cons, ← same]
      rcases walked : (flatten kind items [] key).outcome memo run with ⟨fault | flat, middle, between⟩
      · rw [walked] at kept
        exact ⟨rfl, kept⟩
      · rw [walked] at kept
        obtain ⟨others, last⟩ := ih between kept
        dsimp only
        rw [← others]
        rcases ran : (flattenKeys kind items rest).outcome middle between with ⟨fault | flats, kept', after⟩
        · rw [ran] at last
          exact ⟨rfl, last⟩
        · rw [ran] at last
          exact ⟨rfl, last⟩

end EventSchema.Lineage
