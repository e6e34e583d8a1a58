import Mathlib.Logic.Relation
import EventSchema.Lineage
import EventSchema.Proofs.Outcome

/-!
Lines of ancestors.

The line of an item is the item itself, its parent, the parent of that, and so on up to an item
without a parent. A key has at most one line, and no key comes twice on it. `inherit` flattens the
item at the front of a line by going up the line once; the memoized walk gives exactly that, whatever
it has flattened before.
-/

set_option autoImplicit false

namespace EventSchema.Lineage

/-- A line of items with their keys, the youngest first: each item is found under its key and is the
parent of the one before it, and the last one has no parent or was flattened before. -/
inductive Ancestry (items : Fields) : List (Text × Fields) → Prop where
  | root {key : Text} {mark : Option Nat} {item : Fields}
      (found : Entries.get? key items = some (.object mark item))
      (first : Value.given (Entries.get? "_resolved" item) = true ∨
        findParent items key (.object mark item) = .ok none) :
      Ancestry items [(key, item)]
  | child {key : Text} {mark : Option Nat} {item : Fields} {parent : Text × Fields}
      {above : List (Text × Fields)}
      (found : Entries.get? key items = some (.object mark item))
      (fresh : Value.given (Entries.get? "_resolved" item) = false)
      (next : findParent items key (.object mark item) = .ok (some parent.1))
      (older : Ancestry items (parent :: above)) :
      Ancestry items ((key, item) :: parent :: above)

def inherit (kind : ItemKind) : List (Text × Fields) → Except Fault Fields
  | [] => .ok []
  | [(key, item)] =>
    if Value.given (Entries.get? "_resolved" item) then .ok item
    else if !Value.given (Entries.get? "extends" item) then standalone key item
    else resolved <$> standalone key item
  | (key, item) :: parent :: above => do
    let ancestor ← inherit kind (parent :: above)
    resolved <$> descend kind key ancestor item

/-- What a flattened item is: the front of its line with everything inherited. -/
def Flat (kind : ItemKind) (items : Fields) (key : Text) (flat : Fields) : Prop :=
  ∃ item above, Ancestry items ((key, item) :: above) ∧
    inherit kind ((key, item) :: above) = .ok flat

/-- All items kept so far are flat. -/
def Sound (kind : ItemKind) (items : Fields) (memo : Entries Fields) : Prop :=
  ∀ key flat, Entries.get? key memo = some flat → Flat kind items key flat

variable {kind : ItemKind} {items : Fields}

/-! ### A key has one line -/

theorem Ancestry.unique {key : Text} {left right : Fields} {older elder : List (Text × Fields)}
    (first : Ancestry items ((key, left) :: older))
    (second : Ancestry items ((key, right) :: elder)) :
    left = right ∧ older = elder := by
  generalize shape : (key, left) :: older = line at first
  induction first generalizing key left right older elder with
  | @root known mark item found start =>
      cases shape
      cases second with
      | root found' start' =>
          rw [found] at found'
          cases found'
          exact ⟨rfl, rfl⟩
      | child found' fresh next older =>
          rw [found] at found'
          cases found'
          rcases start with marked | alone
          · rw [marked] at fresh
            cases fresh
          · rw [alone] at next
            cases next
  | @child known mark item parent above found fresh next older ih =>
      cases shape
      cases second with
      | root found' start =>
          rw [found] at found'
          cases found'
          rcases start with marked | alone
          · rw [marked] at fresh
            cases fresh
          · rw [alone] at next
            cases next
      | @child _ mark' _ parent' above' found' fresh' next' older' =>
          rw [found] at found'
          cases found'
          rw [next] at next'
          injection next' with sameSome
          injection sameSome with sameKey
          obtain ⟨parentKey, parentItem⟩ := parent
          obtain ⟨otherKey, otherItem⟩ := parent'
          change parentKey = otherKey at sameKey
          subst sameKey
          obtain ⟨sameItem, sameAbove⟩ := ih older' rfl
          rw [sameItem, sameAbove]
          exact ⟨rfl, rfl⟩

/-- Cutting the younger part of a line off leaves a line. -/
theorem Ancestry.suffix (younger : List (Text × Fields)) {entry : Text × Fields}
    {above : List (Text × Fields)} (line : Ancestry items (younger ++ entry :: above)) :
    Ancestry items (entry :: above) := by
  induction younger with
  | nil => exact line
  | cons head rest ih =>
      apply ih
      cases rest with
      | nil =>
          cases line with
          | child found fresh next older => exact older
      | cons second others =>
          cases line with
          | child found fresh next older => exact older

theorem Ancestry.object_of_mem {line : List (Text × Fields)} (ancestry : Ancestry items line)
    {entry : Text × Fields} (member : entry ∈ line) :
    ∃ mark, Entries.get? entry.1 items = some (.object mark entry.2) := by
  obtain ⟨younger, older, rfl⟩ := List.append_of_mem member
  cases ancestry.suffix with
  | root known => exact ⟨_, known⟩
  | child known => exact ⟨_, known⟩

theorem Ancestry.front_fresh {key : Text} {item : Fields} {above : List (Text × Fields)}
    (line : Ancestry items ((key, item) :: above)) : key ∉ above.map Prod.fst := by
  intro member
  obtain ⟨⟨again, other⟩, present, same⟩ := List.mem_map.mp member
  change again = key at same
  subst same
  obtain ⟨younger, older, split⟩ := List.append_of_mem present
  have repeated : Ancestry items ((again, other) :: older) := by
    apply Ancestry.suffix ((again, item) :: younger)
    rw [List.cons_append, ← split]
    exact line
  obtain ⟨_, sameLine⟩ := Ancestry.unique line repeated
  have length := congrArg List.length split
  rw [List.length_append, List.length_cons, sameLine] at length
  omega

theorem Flat.unique {key : Text} {left right : Fields} (first : Flat kind items key left)
    (second : Flat kind items key right) : left = right := by
  obtain ⟨item, above, line, computed⟩ := first
  obtain ⟨other, elder, line', computed'⟩ := second
  obtain ⟨sameItem, sameAbove⟩ := Ancestry.unique line line'
  subst sameItem
  subst sameAbove
  rw [computed] at computed'
  exact Except.ok.inj computed'

theorem Sound.nil : Sound kind items [] := by
  intro key flat impossible
  cases impossible

theorem Sound.put {memo : Entries Fields} (sound : Sound kind items memo) {key : Text}
    {flat : Fields} (computed : Flat kind items key flat) :
    Sound kind items (Entries.put key flat memo) := by
  intro other value found
  rw [Entries.get?_put] at found
  by_cases same : other = key
  · rw [if_pos same] at found
    rw [same, ← Option.some.inj found]
    exact computed
  · rw [if_neg same] at found
    exact sound other value found

/-! ### Items without cycles have lines -/

def Parent (items : Fields) (child parent : Text) : Prop :=
  ∃ value, Entries.get? child items = some value ∧
    findParent items child value = .ok (some parent)

theorem has_of_findParent {key parent : Text} {value : Value}
    (found : findParent items key value = .ok (some parent)) : Entries.has parent items = true := by
  unfold findParent at found
  obtain ⟨fields, _, found⟩ := bind_eq_ok.mp found
  cases named : Entries.get? "extends" fields with
  | none =>
      rw [named] at found
      cases found
  | some name =>
      rw [named] at found
      have byName (found : (do
          let _ ← (Value.text "/").member name
          if ← name.isEntry items then return name.text? else return none :
            Except Fault (Option Text)) = .ok (some parent)) :
          Entries.has parent items = true := by
        obtain ⟨_, _, found⟩ := bind_eq_ok.mp found
        obtain ⟨listed, entry, found⟩ := bind_eq_ok.mp found
        cases listed with
        | false => cases found
        | true =>
            have itself : name = .text parent := by
              cases name with
              | text text =>
                  rw [← Option.some.inj (pure_eq_ok.mp found)]
              | null | bool _ | int _ | float _ | array _ | object _ _ => cases found
            rw [itself] at entry
            exact pure_eq_ok.mp entry
      dsimp only at found
      split at found
      · cases found
      · split at found
        · split at found
          · obtain ⟨slashed, _, found⟩ := bind_eq_ok.mp found
            cases slashed with
            | true => exact byName found
            | false =>
                rw [Bool.not_false, if_pos rfl] at found
                split at found
                · rename_i own
                  rw [pure_eq_ok, Option.some.injEq] at found
                  exact found ▸ (Bool.and_eq_true_iff.mp own).2
                · exact byName found
          · exact byName found
        · exact byName found

theorem exists_ancestry
    (objects : ∀ key value, Entries.get? key items = some value →
      ∃ mark item parent?, value = .object mark item ∧
        Value.given (Entries.get? "_resolved" item) = false ∧
        findParent items key value = .ok parent?)
    (acyclic : ∀ key, ¬Relation.TransGen (Parent items) key key) {key : Text}
    (present : Entries.has key items = true) :
    ∃ item above, Ancestry items ((key, item) :: above) := by
  -- on the way up no key comes again, so each step leaves fewer keys
  suffices climb : ∀ left (way : List Text) (key : Text),
      ((Entries.keys items).filter (· ∉ way)).length = left →
      (∀ below ∈ way, Relation.TransGen (Parent items) below key) →
      Entries.has key items = true → ∃ item above, Ancestry items ((key, item) :: above) from
    climb _ [] key rfl (fun below impossible => by cases impossible) present
  intro left
  induction left using Nat.strongRecOn with
  | ind left ih =>
      intro way key counted below present
      cases found : Entries.get? key items with
      | none =>
          rw [Entries.has, found] at present
          cases present
      | some value =>
          obtain ⟨mark, item, parent?, shape, unmarked, next⟩ := objects key value found
          subst shape
          cases parent? with
          | none => exact ⟨item, [], .root found (Or.inr next)⟩
          | some parent =>
              have up : Parent items key parent := ⟨_, found, next⟩
              have fresh : key ∉ way := fun again => acyclic key (below key again)
              have fewer := remaining_lt (Entries.mem_keys_of_get? found) fresh
              obtain ⟨other, above, line⟩ := ih _ (counted ▸ fewer) (way ++ [key]) parent rfl
                (by
                  intro lower member
                  rcases List.mem_append.mp member with before | last
                  · exact (below lower before).tail up
                  · exact List.mem_singleton.mp last ▸ .single up)
                (has_of_findParent next)
              exact ⟨item, (parent, other) :: above, .child found unmarked next line⟩

/-! ### The walk that keeps what it has flattened -/

variable {α β : Type}

/-- What a walk comes to from the items flattened so far: its result, the items flattened then, and
the state of the run. -/
def Flattening.outcome (walk : Flattening α) (memo : Entries Fields) (run : Run) :
    Except Fault α × Entries Fields × Run :=
  let ended := StateT.run (StateT.run (ExceptT.run walk) memo) run
  (ended.1.1, ended.1.2, ended.2)

namespace Flattening

theorem outcome_pure (value : α) (memo : Entries Fields) (run : Run) :
    outcome (pure value) memo run = (.ok value, memo, run) := rfl

theorem outcome_throw (fault : Fault) (memo : Entries Fields) (run : Run) :
    outcome (throw fault : Flattening α) memo run = (.error fault, memo, run) := rfl

theorem outcome_bind (walk : Flattening α) (next : α → Flattening β) (memo : Entries Fields)
    (run : Run) :
    outcome (walk >>= next) memo run = match outcome walk memo run with
      | (.ok value, kept, after) => outcome (next value) kept after
      | (.error fault, kept, after) => (.error fault, kept, after) := by
  unfold outcome ExceptT.run StateT.run
  simp only [bind, ExceptT.bind, ExceptT.mk, StateT.bind]
  cases walk memo run with
  | mk ended after =>
      cases ended with
      | mk result kept => cases result <;> rfl

theorem outcome_get (memo : Entries Fields) (run : Run) :
    outcome (getThe (Entries Fields)) memo run = (.ok memo, memo, run) := rfl

theorem outcome_modify (change : Entries Fields → Entries Fields) (memo : Entries Fields)
    (run : Run) :
    outcome (modifyThe (Entries Fields) change) memo run = (.ok (), change memo, run) := rfl

theorem outcome_lift (computation : Except Fault α) (memo : Entries Fields) (run : Run) :
    outcome (liftM computation) memo run = (computation, memo, run) := rfl

theorem outcome_act (act : Act α) (memo : Entries Fields) (run : Run) :
    outcome (liftM act) memo run = ((act.outcome run).1, memo, (act.outcome run).2) := rfl

end Flattening

end EventSchema.Lineage
