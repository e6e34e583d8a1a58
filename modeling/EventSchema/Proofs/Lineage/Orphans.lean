import EventSchema.Proofs.Entries
import EventSchema.Proofs.Lineage.Attributes
import EventSchema.Proofs.Lineage.Recall
import EventSchema.Proofs.Order.Mirror

/-!
Items whose parent is nowhere.

Such an item is told of when it is flattened, and since every item is flattened once, whatever asked for it,
it is told of once. What is counted on a walk is what is to be counted for the keys that the walk keeps, also
if it ends with a fault: nothing can go wrong between telling of an item and keeping it.
-/

set_option autoImplicit false

namespace EventSchema.Lineage

variable {kind : ItemKind} {items : Fields}

structure Outlined (items : Fields) : Prop where
  object : ∀ key value, Entries.get? key items = some value → value.isObject = true
  attributes : ∀ key mark item, Entries.get? key items = some (.object mark item) →
    ∀ value, Entries.get? "attributes" item = some value → value.isObject = true

theorem Outlined.exists_object (outlined : Outlined items) {key : Text} {value : Value}
    (found : Entries.get? key items = some value) : ∃ mark item, value = .object mark item := by
  have object := outlined.object key value found
  cases value with
  | object mark item => exact ⟨mark, item, rfl⟩
  | null | bool _ | int _ | float _ | text _ | array _ => cases object

/-- An item that takes nothing from a parent never ends in a fault. -/
theorem Outlined.exists_standalone (outlined : Outlined items) {key : Text} {mark : Option Nat} {item : Fields}
    (found : Entries.get? key items = some (.object mark item)) : ∃ flat, standalone key item = .ok flat := by
  obtain ⟨inner, opened⟩ := fieldsOrNone_of_objects (outlined.attributes key mark item found)
  rw [standalone, opened]
  exact ⟨_, rfl⟩

/-! ### What is told of -/

/-- The reference that is left unresolved when the item under a key is flattened, if any: the one to a
parent that is nowhere. -/
def orphan? (kind : ItemKind) (items : Fields) (key : Text) : Option Unresolved :=
  match Entries.get? key items with
  | some (.object mark item) =>
    if Value.given (Entries.get? "_resolved" item) then none
    else if !Value.given (Entries.get? "extends" item) then none
    else
      match findParent items key (.object mark item) with
      | .ok none => some (.noParent kind key (Entries.orNull "extends" item))
      | _ => none
  | _ => none

def orphans (kind : ItemKind) (items : Fields) (keys : List Text) : Diagnostics where
  errors := (keys.filterMap (orphan? kind items)).length
  unresolved := keys.filterMap (orphan? kind items)

private theorem orphans_append (first later : List Text) :
    orphans kind items (first ++ later) = (orphans kind items first).add (orphans kind items later) := by
  unfold orphans
  rw [List.filterMap_append, List.length_append]
  rfl

private theorem orphans_singleton {key : Text} (parented : orphan? kind items key = none) :
    orphans kind items [key] = {} := by
  unfold orphans
  rw [List.filterMap_cons, parented]
  rfl

structure Counts (kind : ItemKind) (items : Fields) (way : List Text) (memo kept : Entries Fields)
    (run after : Run) : Prop where
  counted : ∃ new, Entries.keys kept = Entries.keys memo ++ new ∧ (∀ key ∈ new, key ∉ way ∧ key ∈ Entries.keys items) ∧
    after.diagnostics = run.diagnostics.add (orphans kind items new)
  distinct : Entries.Distinct memo → Entries.Distinct kept

theorem Counts.refl (way : List Text) (memo : Entries Fields) (run : Run) :
    Counts kind items way memo memo run run where
  counted := ⟨[], (List.append_nil _).symm, List.forall_mem_nil _, (Diagnostics.add_none _).symm⟩
  distinct distinct := distinct

theorem Counts.trans {way : List Text} {memo middle kept : Entries Fields} {run between after : Run}
    (first : Counts kind items way memo middle run between) (second : Counts kind items way middle kept between after) :
    Counts kind items way memo kept run after where
  counted := by
    obtain ⟨new, keys, fresh, told⟩ := first.counted
    obtain ⟨more, keys', fresh', told'⟩ := second.counted
    refine ⟨new ++ more, by rw [keys', keys, List.append_assoc], ?_, ?_⟩
    · exact List.forall_mem_append.mpr ⟨fresh, fresh'⟩
    · rw [told', told, orphans_append, Diagnostics.add_assoc]
  distinct distinct := second.distinct (first.distinct distinct)

/-- What the way up to a parent never met, a shorter way did not meet either. -/
theorem Counts.shorten {way : List Text} {key : Text} {memo kept : Entries Fields} {run later after : Run}
    (above : Counts kind items (way ++ [key]) memo kept run later) (same : after.diagnostics = later.diagnostics) :
    Counts kind items way memo kept run after where
  counted := by
    obtain ⟨new, keys, free, told⟩ := above.counted
    exact ⟨new, keys, fun key member => ⟨fun waiting => (free key member).1 (List.mem_append_left _ waiting),
      (free key member).2⟩, same.trans told⟩
  distinct := above.distinct

/-- The key that is flattened comes last among the new ones: the way up to its parent never met it. -/
theorem Counts.put {way : List Text} {key : Text} {memo middle : Entries Fields} {run later after : Run}
    (above : Counts kind items (way ++ [key]) memo middle run later) (unknown : key ∉ Entries.keys memo)
    (fresh : key ∉ way) (present : key ∈ Entries.keys items)
    (told : after.diagnostics = later.diagnostics.add (orphans kind items [key])) (flat : Fields) :
    Counts kind items way memo (Entries.put key flat middle) run after where
  counted := by
    obtain ⟨new, keys, free, counted⟩ := above.counted
    have absent : key ∉ Entries.keys middle := by
      rw [keys, List.mem_append, not_or]
      exact ⟨unknown, fun member => (free key member).1 (List.mem_append_right _ (List.mem_singleton_self key))⟩
    refine ⟨new ++ [key], ?_, ?_, ?_⟩
    · rw [Entries.keys_put, if_neg (fun held => absent (Entries.has_iff_mem_keys.mp held)), keys, List.append_assoc]
    · refine List.forall_mem_append.mpr ⟨fun other member => ?_, fun other member => ?_⟩
      · exact ⟨fun waiting => (free other member).1 (List.mem_append_left _ waiting), (free other member).2⟩
      · rw [List.mem_singleton.mp member]
        exact ⟨fresh, present⟩
    · rw [told, counted, Diagnostics.add_assoc, orphans_append]
  distinct distinct := (above.distinct distinct).put key flat

/-- An item that is met for the first time counts what its ancestors count and then what is to be counted for
itself, which is nothing if it ends in a fault. -/
theorem counts_flattenNew {way : List Text} {key : Text} {mark : Option Nat} {item : Fields}
    {memo kept : Entries Fields} {result : Except Fault Fields} {run after : Run}
    (found : Entries.get? key items = some (.object mark item))
    (ran : (flattenNew kind items way key item).outcome memo run = (result, kept, after))
    (ends : (∃ flat, result = .ok flat) ∨ Outlined items)
    (above : ∀ parent result' kept' after',
      (flatten kind items (way ++ [key]) parent).outcome memo run = (result', kept', after') →
      (∃ flat, result' = .ok flat) ∨ Outlined items → Counts kind items (way ++ [key]) memo kept' run after') :
    ∃ later, Counts kind items (way ++ [key]) memo kept run later ∧
      (∀ flat, result = .ok flat → after.diagnostics = later.diagnostics.add (orphans kind items [key])) ∧
      ∀ fault, result = .error fault → after.diagnostics = later.diagnostics := by
  have silent (parented : orphan? kind items key = none) (run : Run) :
      run.diagnostics = run.diagnostics.add (orphans kind items [key]) := by
    rw [orphans_singleton parented, Diagnostics.add_none]
  rw [outcome_flattenNew run found] at ran
  by_cases marked : Value.given (Entries.get? "_resolved" item) = true
  · rw [if_pos marked] at ran
    cases ran
    exact ⟨run, .refl _ memo run, fun _ _ => silent (by simp only [orphan?, found, marked, if_true]) run,
      fun _ _ => rfl⟩
  rw [if_neg marked] at ran
  by_cases parentless : (!Value.given (Entries.get? "extends" item)) = true
  · rw [if_pos parentless] at ran
    cases ran
    refine ⟨_, .refl _ _ _, fun _ _ => silent ?_ _, fun _ _ => rfl⟩
    simp only [orphan?, found, marked, parentless, if_true]
    rfl
  rw [if_neg parentless] at ran
  cases next : findParent items key (.object mark item) with
  | error fault =>
      rw [next] at ran
      cases ran
      exact ⟨run, .refl _ memo run, nofun, fun _ _ => rfl⟩
  | ok parent? =>
      rw [next] at ran
      cases parent? with
      | none =>
          have told : orphan? kind items key = some (.noParent kind key (Entries.orNull "extends" item)) := by
            simp only [orphan?, found, marked, parentless, next]
            rfl
          cases ran
          refine ⟨run, .refl _ memo run, fun _ _ => ?_, fun fault failed => ?_⟩
          · unfold orphans
            rw [List.filterMap_cons, told]
            rfl
          · -- what is told of is kept, for its own definition is always one
            exfalso
            rcases ends with ⟨flat, same⟩ | outlined
            · cases failed.symm.trans same
            · obtain ⟨flat, alone⟩ := outlined.exists_standalone found
              rw [alone] at failed
              cases failed
      | some parent =>
          have parented : orphan? kind items key = none := by
            simp only [orphan?, found, marked, parentless, next]
            rfl
          dsimp only at ran
          rcases walked : (flatten kind items (way ++ [key]) parent).outcome memo run with
            ⟨fault | ancestor, kept', after'⟩
          · rw [walked] at ran
            cases ran
            refine ⟨_, above parent _ _ _ walked ?_, nofun, fun _ _ => rfl⟩
            rcases ends with ⟨flat, same⟩ | outlined
            · cases same
            · exact .inr outlined
          · rw [walked] at ran
            cases ran
            exact ⟨_, above parent _ _ _ walked (.inl ⟨ancestor, rfl⟩), fun _ _ => silent parented _,
              fun _ _ => rfl⟩

/-- What a walk counts is what is to be counted for the keys that it keeps, whether it ended well or not. -/
theorem counts_flatten {way : List Text} {key : Text} {memo kept : Entries Fields} {result : Except Fault Fields}
    {run after : Run} (ran : (flatten kind items way key).outcome memo run = (result, kept, after))
    (ends : (∃ flat, result = .ok flat) ∨ Outlined items) :
    Counts kind items way memo kept run after ∧ ∀ flat, result = .ok flat → key ∈ Entries.keys kept := by
  -- each step up leaves fewer keys that are not on the way
  induction left : ((Entries.keys items).filter (· ∉ way)).length using
    Nat.strongRecOn generalizing way key memo kept result run after with
  | ind left ih =>
  cases known : Entries.get? key memo with
  | some before =>
      rw [flatten_known run known] at ran
      cases ran
      exact ⟨.refl way memo run, fun _ _ => Entries.mem_keys_of_get? known⟩
  | none =>
      by_cases waiting : key ∈ way
      · rw [outcome_flatten_waiting run known waiting, ascend_waiting waiting] at ran
        cases ran
        exact ⟨.refl way memo run, nofun⟩
      cases found : Entries.get? key items with
      | none =>
          rw [outcome_flatten_absent run known waiting found, ascend_absent waiting found] at ran
          cases ran
          exact ⟨.refl way memo run, nofun⟩
      | some value =>
          obtain ⟨mark, item, rfl⟩ : ∃ mark item, value = .object mark item := by
            rcases ends with ⟨flat, rfl⟩ | outlined
            · obtain ⟨_, mark, item, found'⟩ := object_of_flatten known ran
              exact ⟨mark, item, Option.some.inj (found.symm.trans found')⟩
            · exact outlined.exists_object found
          have present := Entries.mem_keys_of_get? found
          have above (parent : Text) (result' : Except Fault Fields) (kept' : Entries Fields) (after' : Run)
              (walked : (flatten kind items (way ++ [key]) parent).outcome memo run = (result', kept', after'))
              (ends' : (∃ flat, result' = .ok flat) ∨ Outlined items) :
              Counts kind items (way ++ [key]) memo kept' run after' :=
            (ih _ (left ▸ remaining_lt present waiting) walked ends' rfl).1
          rw [outcome_flatten run known waiting found] at ran
          rcases walked : (flattenNew kind items way key item).outcome memo run with
            ⟨fault | flat, middle, between⟩
          · rw [walked] at ran
            cases ran
            obtain ⟨later, counts, _, silent⟩ := counts_flattenNew found walked (ends.imp_left nofun) above
            exact ⟨counts.shorten (silent fault rfl), nofun⟩
          · rw [walked] at ran
            cases ran
            obtain ⟨later, counts, told, _⟩ := counts_flattenNew found walked (.inl ⟨flat, rfl⟩) above
            exact ⟨counts.put (Entries.get?_eq_none_iff.mp known) waiting present (told flat rfl) flat,
              fun _ _ => Entries.mem_keys_of_get? (Entries.get?_put_self key flat middle)⟩

theorem counts_flattenKeys {keys : List Text} {memo kept : Entries Fields} {result : Except Fault (Entries Fields)}
    {run after : Run} (ran : (flattenKeys kind items keys).outcome memo run = (result, kept, after))
    (ends : (∃ flats, result = .ok flats) ∨ Outlined items) :
    Counts kind items [] memo kept run after ∧ ∀ flats, result = .ok flats → ∀ key ∈ keys, key ∈ Entries.keys kept := by
  induction keys generalizing memo run result with
  | nil =>
      cases ran
      exact ⟨.refl [] _ _, fun _ _ => List.forall_mem_nil _⟩
  | cons key rest ih =>
      rw [outcome_flattenKeys_cons] at ran
      rcases walked : (flatten kind items [] key).outcome memo run with ⟨fault | flat, middle, between⟩
      · rw [walked] at ran
        cases ran
        refine ⟨(counts_flatten walked ?_).1, nofun⟩
        rcases ends with ⟨flats, same⟩ | outlined
        · cases same
        · exact .inr outlined
      · rw [walked] at ran
        obtain ⟨here, held⟩ := counts_flatten walked (.inl ⟨flat, rfl⟩)
        dsimp only at ran
        rcases others : (flattenKeys kind items rest).outcome middle between with ⟨fault | flats, last, ended⟩
        · rw [others] at ran
          cases ran
          refine ⟨here.trans (ih others ?_).1, nofun⟩
          rcases ends with ⟨flats, same⟩ | outlined
          · cases same
          · exact .inr outlined
        · rw [others] at ran
          cases ran
          obtain ⟨there, each⟩ := ih others (.inl ⟨flats, rfl⟩)
          refine ⟨here.trans there, fun _ _ => List.forall_mem_cons.mpr ⟨?_, each flats rfl⟩⟩
          obtain ⟨new, keys, _⟩ := there.counted
          rw [keys]
          exact List.mem_append_left _ (held flat rfl)

theorem counted_flattenAll {run after : Run} {flats : Entries Fields} (distinct : Entries.Distinct items)
    (ran : (flattenAll kind items).outcome run = (.ok flats, after)) :
    ∃ order : List Text, order.Perm (Entries.keys items) ∧
      after.diagnostics = run.diagnostics.add (orphans kind items order) := by
  rw [outcome_flattenAll] at ran
  rcases walked : (flattenEach kind items).outcome [] run with ⟨result, kept, last⟩
  rw [walked] at ran
  cases ran
  obtain ⟨counts, each⟩ := counts_flattenKeys walked (.inl ⟨flats, rfl⟩)
  obtain ⟨new, keys, own, told⟩ := counts.counted
  change Entries.keys kept = [] ++ new at keys
  rw [List.nil_append] at keys
  refine ⟨new, (List.perm_ext_iff_of_nodup (keys ▸ counts.distinct .nil) distinct).mpr fun key => ?_, told⟩
  exact ⟨fun member => (own key member).2, fun member => keys ▸ each flats rfl key member⟩

/-! ### Who is told of -/

/-- An item that was not flattened before names a parent that is nowhere. -/
def IsOrphan (items : Fields) (key : Text) : Prop :=
  ∃ mark item, Entries.get? key items = some (.object mark item) ∧
    Value.given (Entries.get? "_resolved" item) = false ∧ Value.given (Entries.get? "extends" item) = true ∧
    findParent items key (.object mark item) = .ok none

def parentName (items : Fields) (key : Text) : Value := Entries.orNull "extends" (Entries.orNull key items).inner

private theorem orphan?_eq_some_iff {key : Text} {reference : Unresolved} :
    orphan? kind items key = some reference ↔
      IsOrphan items key ∧ reference = .noParent kind key (parentName items key) := by
  constructor
  · intro told
    unfold orphan? at told
    split at told
    · rename_i mark item found
      split at told
      · cases told
      · rename_i unmarked
        split at told
        · cases told
        · rename_i named
          split at told
          · rename_i next
            cases told
            refine ⟨⟨mark, item, found, Bool.eq_false_iff.mpr unmarked, by simpa using named, next⟩, ?_⟩
            rw [parentName, orNull_of_get? found]
            rfl
          · cases told
    · cases told
  · rintro ⟨⟨mark, item, found, unmarked, named, next⟩, rfl⟩
    rw [orphan?, parentName, orNull_of_get? found, found]
    simp only [unmarked, named, next]
    rfl

/-- What is counted for some keys is told of the orphans among them, one by one. -/
theorem exists_orphans (kind : ItemKind) (items : Fields) {keys : List Text} (once : keys.Nodup) :
    ∃ reported : List Text, reported.Nodup ∧ (∀ key, key ∈ reported ↔ key ∈ keys ∧ IsOrphan items key) ∧
      orphans kind items keys = {
        errors := reported.length
        unresolved := reported.map fun key => .noParent kind key (parentName items key) } := by
  have listed : ∀ keys : List Text, keys.filterMap (orphan? kind items) =
      (keys.filter fun key => (orphan? kind items key).isSome).map fun key =>
        .noParent kind key (parentName items key) := by
    intro keys
    induction keys with
    | nil => rfl
    | cons key rest ih =>
        rw [List.filterMap_cons, List.filter_cons]
        cases told : orphan? kind items key with
        | none => exact ih
        | some reference =>
            rw [(orphan?_eq_some_iff.mp told).2]
            exact congrArg _ ih
  refine ⟨_, once.filter _, fun key => ?_, by rw [orphans, listed, List.length_map]⟩
  rw [List.mem_filter, Option.isSome_iff_exists]
  simp [orphan?_eq_some_iff]

end EventSchema.Lineage
