import EventSchema.Proofs.Lineage.Attributes
import EventSchema.Proofs.Lineage.Inheritance
import EventSchema.Proofs.Lineage.Own
import EventSchema.Proofs.Lineage.Stepwise
import EventSchema.Proofs.Value.Independent

/-!
Two lines of items that differ in some fields and attributes.

An item is flattened by writing its attributes over those of its parent, one by one. Attributes that share
nothing with the others come to what they come to on their own. So two lines that say the same of these come
to the same there, whatever else one of them says. Fields that are not joined are told in the same way.
-/

set_option autoImplicit false

namespace EventSchema.Lineage

open Value

/-! ### Attributes written one by one -/

def withSource (base merged : Fields) : Fields :=
  match Entries.get? "_source" base with
  | some source => if source.isNull then merged else Entries.put "_source" source merged
  | none => merged

/-- An attribute of an item over what is inherited under its name. -/
def overriding (key : Text) (inherited : Option Value) (value : Value) : Value :=
  match inherited, value with
  | some (.object mark base), .object _ fields =>
    .object mark (withSource base (mergeFields base (unsharedFields fields)))
  | _, .object _ fields => sourced key (.object none (unsharedFields fields))
  | _, value => value

/-- Inherited attributes with one of the item written over them. An object over an object is written in
place, so that it shows wherever it is shared. -/
def overridden (key name : Text) (value : Value) (fields : Fields) : Fields :=
  let written := overriding key (Entries.get? name fields) value
  match Entries.get? name fields, value with
  | some (.object _ _), .object _ _ => putShared name written fields
  | _, _ => Entries.put name written fields

def overrides (key : Text) (own inherited : Fields) : Fields :=
  own.foldl (fun fields entry => overridden key entry.1 entry.2 fields) inherited

theorem override_eq (key name : Text) (mark : Option Nat) (fields : Fields) (value : Value) :
    override key (.object mark fields) name value = .ok (.record (overridden key name value fields)) := by
  unfold override overridden
  rw [Value.asFields, ok_bind]
  cases value with
  | object own given =>
      cases known : Entries.get? name fields with
      | none =>
          dsimp only
          rw [unshared]
          rfl
      | some before =>
          cases before with
          | object inner base =>
              have shape : overriding key (some (.object inner base)) (.object own given) =
                  .object inner (withSource base (mergeFields base (unsharedFields given))) := rfl
              rw [shape, withSource]
              dsimp only
              rw [unshared, merge_object]
              cases Entries.get? "_source" base with
              | none => rfl
              | some source =>
                  dsimp only
                  split <;> rfl
          | null | bool _ | int _ | float _ | text _ | array _ =>
              dsimp only
              rw [unshared]
              rfl
  | null | bool _ | int _ | float _ | text _ | array _ =>
      cases Entries.get? name fields with
      | none => rfl
      | some before => cases before <;> rfl

theorem overrides_record (key : Text) (own inherited : Fields) :
    own.foldlM (fun inherited entry => override key inherited entry.1 entry.2) (.record inherited) =
      .ok (.record (overrides key own inherited)) := by
  induction own generalizing inherited with
  | nil => rfl
  | cons head rest ih =>
      rw [List.foldlM_cons, Value.record, override_eq, ok_bind]
      exact ih _

private theorem overrides_eq {key : Text} {mark last : Option Nat} {own inherited result : Fields}
    (ran : own.foldlM (fun inherited entry => override key inherited entry.1 entry.2) (.object mark inherited) =
      .ok (.object last result)) : result = overrides key own inherited := by
  induction own generalizing mark inherited with
  | nil =>
      cases pure_eq_ok.mp ran
      rfl
  | cons head rest ih =>
      rw [List.foldlM_cons, override_eq, ok_bind] at ran
      exact ih ran

/-- What an item gives is copied before it is written. -/
theorem overridden_unshared (key name : Text) (value : Value) (fields : Fields) :
    overridden key name value.unshared fields = overridden key name value fields := by
  cases value with
  | object mark own =>
      have again : unsharedFields (unsharedFields own) = unsharedFields own := plainFields_unsharedFields own
      rw [unshared]
      unfold overridden overriding
      cases Entries.get? name fields with
      | none =>
          dsimp only
          rw [again]
      | some before =>
          cases before with
          | object _ _ | null | bool _ | int _ | float _ | text _ | array _ =>
              dsimp only
              rw [again]
  | null | bool _ | int _ | float _ | text _ | array _ => rw [unshared_of_leaf rfl]

private theorem overrides_unshared (key : Text) (own inherited : Fields) :
    overrides key (unsharedFields own) inherited = overrides key own inherited := by
  unfold overrides
  induction own generalizing inherited with
  | nil => rw [unsharedFields]
  | cons head rest ih =>
      rw [unsharedFields, List.foldl_cons, List.foldl_cons, overridden_unshared, ih]

private theorem distinct_overrides {key : Text} {own inherited : Fields} (distinct : Entries.Distinct inherited) :
    Entries.Distinct (overrides key own inherited) := by
  unfold overrides
  induction own generalizing inherited with
  | nil => exact distinct
  | cons head rest ih =>
      refine ih ?_
      unfold overridden
      dsimp only
      split
      · rw [putShared, Entries.Distinct, keys_refreshFields]
        exact distinct.put _ _
      · exact distinct.put _ _

/-! ### Names that share nothing with the others -/

section

variable {c : Nat → Prop} {names : List Text} {fields : Fields}

theorem marked_sourced (key : Text) (s : Nat → Prop) (value : Value) (marked : Marked s value) :
    Marked s (sourced key value) := by
  cases value with
  | object mark fields =>
      obtain ⟨own, inside⟩ := marked_object.mp marked
      exact marked_object.mpr ⟨own, inside.putNew (marked_of_leaf rfl) _⟩
  | null | bool _ | int _ | float _ | text _ | array _ => exact marked

private theorem marked_overriding (key : Text) {s : Nat → Prop} {inherited : Option Value}
    (marked : ∀ before ∈ inherited, Marked s before) (value : Value) : Marked s (overriding key inherited value) := by
  cases value with
  | object own given =>
      have copied : MarkedFields s (unsharedFields given) :=
        markedFields_iff.mpr fun entry member =>
          (plainFields_iff.mp (plainFields_unsharedFields given) entry member).marked
      have alone : Marked s (sourced key (.object none (unsharedFields given))) :=
        marked_sourced key s _ (marked_record.mpr copied)
      cases inherited with
      | none => exact alone
      | some before =>
          cases before with
          | object mark base =>
              obtain ⟨kept, held⟩ := marked_object.mp (marked _ rfl)
              have merged := MarkedFields.merge base _ held copied
              refine marked_object.mpr ⟨kept, ?_⟩
              unfold withSource
              split
              · split
                · exact merged
                · exact merged.put (held.of_get? ‹_›) _
              · exact merged
          | null | bool _ | int _ | float _ | text _ | array _ => exact alone
  | null | bool _ | int _ | float _ | text _ | array _ =>
      cases inherited with
      | none => exact marked_of_leaf rfl
      | some before => cases before <;> exact marked_of_leaf rfl

private theorem split_overridden (split : Split c names fields) (key name : Text) (value : Value) :
    Split c names (overridden key name value fields) := by
  have marked := marked_overriding key (split.of_get? name) value
  unfold overridden
  dsimp only
  split
  · exact (split.put marked).refreshFields (Split.known_occurrences marked)
  · exact split.put marked

private theorem beside_overridden (split : Split c names fields) (key name : Text) (value : Value) :
    Entries.beside names (overridden key name value fields) =
      if name ∈ names then Entries.beside names fields
      else overridden key name value (Entries.beside names fields) := by
  by_cases named : name ∈ names
  · have marked := marked_overriding key (split.of_get? name) value
    rw [if_pos named]
    unfold overridden
    dsimp only
    split
    · rw [putShared, (split.put marked).beside_refreshFields (Split.known_occurrences marked) named,
        Entries.beside_put_of_mem named]
    · exact Entries.beside_put_of_mem named _ _
  · have same : Entries.get? name (Entries.beside names fields) = Entries.get? name fields := by
      rw [Entries.get?_beside, if_neg named]
    rw [if_neg named]
    unfold overridden
    dsimp only
    rw [same]
    split
    · rw [putShared, putShared, beside_refreshFields, Entries.beside_put_of_not_mem named]
    · exact Entries.beside_put_of_not_mem named _ _

private theorem split_overrides (split : Split c names fields) (key : Text) (own : Fields) :
    Split c names (overrides key own fields) ∧ Entries.beside names (overrides key own fields) =
      overrides key (Entries.beside names own) (Entries.beside names fields) := by
  unfold overrides
  induction own generalizing fields with
  | nil => exact ⟨split, rfl⟩
  | cons head rest ih =>
      obtain ⟨whole, same⟩ := ih (split_overridden split key head.1 head.2)
      rw [List.foldl_cons, Entries.beside_cons]
      refine ⟨whole, same.trans ?_⟩
      rw [beside_overridden split]
      by_cases named : head.1 ∈ names
      · rw [if_pos named, if_pos named]
      · rw [if_neg named, if_neg named, List.foldl_cons]

private theorem split_kept (split : Split c names fields) : Split c names (kept fields) :=
  fun entry member => split entry (List.mem_of_mem_filter member)

end

private theorem beside_kept (names : List Text) (fields : Fields) :
    Entries.beside names (kept fields) = kept (Entries.beside names fields) := by
  unfold Entries.beside kept
  rw [List.filter_filter, List.filter_filter]
  exact List.filter_congr fun _ _ => Bool.and_comm ..

private theorem kept_unsharedFields (fields : Fields) :
    kept (unsharedFields fields) = unsharedFields (kept fields) := by
  unfold kept
  induction fields with
  | nil => rw [unsharedFields]; rfl
  | cons head rest ih =>
      rw [unsharedFields, List.filter_cons, List.filter_cons, isNull_unshared, ih]
      split
      · rw [unsharedFields]
      · rfl

private theorem sourced_unshared (key : Text) (value : Value) : sourced key value.unshared =
    (sourced key value).unshared := by
  cases value with
  | object mark fields =>
      rw [unshared, sourced, sourced, unshared, Entries.putNew, Entries.putNew, Entries.has, Entries.has,
        get?_unsharedFields, Option.isSome_map]
      split
      · rfl
      · exact congrArg (Value.object none) (put_unsharedFields "_source" (.text key) fields)
  | null | bool _ | int _ | float _ | text _ | array _ => simp only [sourced, unshared]

/-! ### Attributes along a line -/

private theorem attributes_of_root {kind : ItemKind} {key : Text} {item flat : Fields}
    (ran : inherit kind [(key, item)] = .ok flat) : Entries.attributes flat =
      if Value.given (Entries.get? "_resolved" item) then Entries.attributes item
      else Entries.mapValues (sourced key) (kept (Entries.attributes item)) := by
  rw [inherit] at ran
  split at ran
  · rename_i settled
    rw [if_pos settled, Except.ok.inj ran]
  · rename_i fresh
    rw [if_neg fresh]
    split at ran
    · exact attributes_of_standalone ran
    · obtain ⟨alone, ran, same⟩ := map_eq_ok.mp ran
      rw [← same, resolved, Entries.attributes_put_of_ne (by decide)]
      exact attributes_of_standalone ran

private theorem attributes_of_child {kind : ItemKind} {key : Text} {item flat : Fields} {parent : Text × Fields}
    {above : List (Text × Fields)} (ran : inherit kind ((key, item) :: parent :: above) = .ok flat) :
    ∃ ancestor, inherit kind (parent :: above) = .ok ancestor ∧ Entries.attributes flat =
      kept (overrides key (Entries.attributes item) (Entries.attributes ancestor)) := by
  rw [inherit] at ran
  obtain ⟨ancestor, inherited, ran⟩ := bind_eq_ok.mp ran
  obtain ⟨below, ran, same⟩ := map_eq_ok.mp ran
  obtain ⟨_, _, _, written, attributes⟩ := attributes_of_descend ran
  refine ⟨ancestor, inherited, ?_⟩
  rw [← same, resolved, Entries.attributes_put_of_ne (by decide), attributes, overrides_eq written]

/-- What items have in common is kept along their line if writing over it, leaving out what is null and
naming the source keep it. -/
theorem holds_of_inherit {holds : Fields → Prop} (none : holds [])
    (sources : ∀ key fields, holds fields → holds (Entries.mapValues (sourced key) fields))
    (keeps : ∀ fields, holds fields → holds (kept fields))
    (writes : ∀ key own fields, holds fields → holds (overrides key own fields))
    {kind : ItemKind} {line : List (Text × Fields)} {flat : Fields}
    (each : ∀ entry ∈ line, holds (Entries.attributes entry.2)) (ran : inherit kind line = .ok flat) :
    holds (Entries.attributes flat) := by
  induction line generalizing flat with
  | nil =>
      rw [← Except.ok.inj ran]
      exact none
  | cons entry above ih =>
      obtain ⟨key, item⟩ := entry
      obtain ⟨own, others⟩ := List.forall_mem_cons.mp each
      cases above with
      | nil =>
          rw [attributes_of_root ran]
          split
          · exact own
          · exact sources key _ (keeps _ own)
      | cons parent above =>
          obtain ⟨ancestor, inherited, same⟩ := attributes_of_child ran
          rw [same]
          exact keeps _ (writes key _ _ (ih others inherited))

/-- What is flattened from items that share nothing shares nothing. -/
theorem unshared_of_inherit {kind : ItemKind} {line : List (Text × Fields)} {flat : Fields}
    (unshared : ∀ entry ∈ line, Unshared (Entries.attributes entry.2))
    (ran : inherit kind line = .ok flat) : Unshared (Entries.attributes flat) := by
  refine holds_of_inherit ⟨plainFields_nil, Entries.Distinct.nil⟩ (fun key fields held => ?_) (fun fields held => ?_)
    (fun key own fields held => ?_) unshared ran
  · refine ⟨plainFields_iff.mpr fun entry member => ?_, held.distinct.mapValues _⟩
    obtain ⟨origin, known, rfl⟩ := List.mem_map.mp member
    exact (marked_sourced key _ _ (plainFields_iff.mp held.plain origin known).marked).plain
  · exact ⟨held.plain.filter _, held.distinct.filter _⟩
  · exact ⟨plainFields_iff_split.mpr (split_overrides (plainFields_iff_split.mp held.plain) key own).1,
      distinct_overrides held.distinct⟩

theorem divided_of_inherit {names : List Text} {kind : ItemKind} {line : List (Text × Fields)} {flat : Fields}
    (divided : ∀ entry ∈ line, Divided names (Entries.attributes entry.2))
    (ran : inherit kind line = .ok flat) : Divided names (Entries.attributes flat) := by
  refine holds_of_inherit ⟨List.forall_mem_nil _, Entries.Distinct.nil⟩ (fun key fields held => ?_)
    (fun fields held => ?_) (fun key own fields held => ?_) divided ran
  · exact ⟨held.independent.mapValues (marked_sourced key), held.distinct.mapValues _⟩
  · obtain ⟨c, split⟩ := independent_iff.mp held.independent
    exact ⟨independent_iff.mpr ⟨c, split_kept split⟩, held.distinct.filter _⟩
  · obtain ⟨c, split⟩ := independent_iff.mp held.independent
    exact ⟨independent_iff.mpr ⟨c, (split_overrides split key own).1⟩, distinct_overrides held.distinct⟩

/-- Two items in front of the same line that say the same beside some names are flattened to the same beside
them, if these share nothing with the others along the line. -/
theorem beside_inherited_congr {names : List Text} {kind : ItemKind} {key : Text} {item other flat flat' : Fields}
    {above : List (Text × Fields)} (divided : ∀ entry ∈ above, Divided names (Entries.attributes entry.2))
    (settled : Entries.get? "_resolved" other = Entries.get? "_resolved" item)
    (same : unsharedFields (Entries.beside names (Entries.attributes other)) =
      unsharedFields (Entries.beside names (Entries.attributes item)))
    (ran : inherit kind ((key, item) :: above) = .ok flat)
    (ran' : inherit kind ((key, other) :: above) = .ok flat') :
    unsharedFields (Entries.beside names (Entries.attributes flat')) =
      unsharedFields (Entries.beside names (Entries.attributes flat)) := by
  cases above with
  | nil =>
      have alone (fields : Fields) :
          unsharedFields (Entries.beside names (Entries.mapValues (sourced key) (kept fields))) =
            Entries.mapValues (sourced key) (kept (unsharedFields (Entries.beside names fields))) := by
        rw [kept_unsharedFields, ← beside_kept, Entries.beside_mapValues, unsharedFields_eq_mapValues,
          unsharedFields_eq_mapValues]
        unfold Entries.mapValues
        rw [List.map_map, List.map_map]
        exact List.map_congr_left fun entry _ => congrArg _ (sourced_unshared key entry.2).symm
      rw [attributes_of_root ran, attributes_of_root ran', settled]
      split
      · exact same
      · rw [alone, alone, same]
  | cons parent above =>
      obtain ⟨ancestor, inherited, attributes⟩ := attributes_of_child ran
      obtain ⟨ancestor', inherited', attributes'⟩ := attributes_of_child ran'
      cases inherited.symm.trans inherited'
      obtain ⟨c, split⟩ := independent_iff.mp (divided_of_inherit divided inherited).independent
      rw [attributes, attributes', beside_kept, beside_kept, (split_overrides split key _).2,
        (split_overrides split key _).2, ← overrides_unshared key (Entries.beside names (Entries.attributes other)),
          same,
        overrides_unshared]

/-! ### Other fields along two lines -/

/-- A field that is not joined comes to the same along two lines whose items have it in common. -/
theorem get?_field_congr {kind : ItemKind} {field : Text} (single : field ∉ joinedKeys)
    (flag : field ≠ "observable_inherited?") (unmarked : field ≠ "_resolved")
    {line others : List (Text × Fields)}
    (related : Entries.Related (fun _ item other => Entries.Distinct item ∧ Entries.Distinct other ∧
      ∀ kept : Text, kept = field ∨ kept = "_resolved" ∨ kept = "extends" →
        Entries.get? kept other = Entries.get? kept item) line others)
    {flat flat' : Fields} (ran : inherit kind line = .ok flat) (ran' : inherit kind others = .ok flat') :
    Entries.get? field flat' = Entries.get? field flat := by
  have attributes : field ≠ "attributes" := fun same => single (same ▸ List.mem_cons_self ..)
  induction related generalizing flat flat' with
  | nil => rw [← Except.ok.inj ran, ← Except.ok.inj ran']
  | @cons entry entry' above above' head rest ih =>
      obtain ⟨key, item⟩ := entry
      obtain ⟨key', other⟩ := entry'
      obtain ⟨rfl, distinct, distinct', same⟩ := head
      have own := same field (Or.inl rfl)
      have settled := same "_resolved" (Or.inr (Or.inl rfl))
      have extended := same "extends" (Or.inr (Or.inr rfl))
      cases rest with
      | nil =>
          rw [inherit] at ran ran'
          rw [settled, extended] at ran'
          split at ran
          · rename_i given
            rw [if_pos given] at ran'
            rw [← Except.ok.inj ran, ← Except.ok.inj ran', own]
          · rename_i fresh
            rw [if_neg fresh] at ran'
            split at ran
            · rename_i root
              rw [if_pos root] at ran'
              rw [get?_standalone ran attributes, get?_standalone ran' attributes, own]
            · rename_i orphan
              rw [if_neg orphan] at ran'
              obtain ⟨alone, stands, rfl⟩ := map_eq_ok.mp ran
              obtain ⟨alone', stands', rfl⟩ := map_eq_ok.mp ran'
              rw [resolved, resolved, Entries.get?_put_of_ne (Ne.symm unmarked),
                Entries.get?_put_of_ne (Ne.symm unmarked), get?_standalone stands attributes,
                get?_standalone stands' attributes, own]
      | cons =>
          rw [inherit] at ran ran'
          obtain ⟨ancestor, inherited, ran⟩ := bind_eq_ok.mp ran
          obtain ⟨ancestor', inherited', ran'⟩ := bind_eq_ok.mp ran'
          obtain ⟨below, descends, rfl⟩ := map_eq_ok.mp ran
          obtain ⟨below', descends', rfl⟩ := map_eq_ok.mp ran'
          rw [resolved, resolved, Entries.get?_put_of_ne (Ne.symm unmarked),
            Entries.get?_put_of_ne (Ne.symm unmarked), get?_descend distinct descends single flag,
            get?_descend distinct' descends' single flag, own, ih inherited inherited']

/-! ### Items with the same lines -/

def lineKeys : List Text := ["extends", "extension", "_resolved"]

private theorem findParent_item {items : Fields} {item other : Fields} (mark mark' : Option Nat) (key : Text)
    (same : ∀ field ∈ lineKeys, Entries.get? field other = Entries.get? field item) :
    findParent items key (.object mark' other) = findParent items key (.object mark item) := by
  unfold findParent
  rw [Value.asFields, Value.asFields, ok_bind, ok_bind, same "extends" (by decide),
    same "extension" (by decide)]

/-- Items that extend each other in the same way have the same lines. -/
theorem Ancestry.congr {items others : Entries Fields}
    (related : Entries.Related (fun _ item other =>
      ∀ field ∈ lineKeys, Entries.get? field other = Entries.get? field item) items others)
    {line : List (Text × Fields)} (ancestry : Ancestry (Entries.mapValues Value.record items) line) :
    ∃ line', Ancestry (Entries.mapValues Value.record others) line' ∧
      Entries.Related (fun key item other => Entries.get? key items = some item ∧
        Entries.get? key others = some other) line line' := by
  have present (key : Text) : Entries.has key (Entries.mapValues Value.record others) =
      Entries.has key (Entries.mapValues Value.record items) := by
    rw [Bool.eq_iff_iff, Entries.has_iff_mem_keys, Entries.has_iff_mem_keys, Entries.keys_mapValues,
      Entries.keys_mapValues, related.keys_eq]
  have counterpart {key : Text} {mark : Option Nat} {item : Fields}
      (found : Entries.get? key (Entries.mapValues Value.record items) = some (.object mark item)) :
      ∃ other, Entries.get? key items = some item ∧ Entries.get? key others = some other ∧
        Entries.get? key (Entries.mapValues Value.record others) = some (.record other) ∧
        Entries.get? "_resolved" other = Entries.get? "_resolved" item ∧
        findParent (Entries.mapValues Value.record others) key (.record other) =
          findParent (Entries.mapValues Value.record items) key (.object mark item) := by
    rw [Entries.get?_mapValues] at found
    obtain ⟨_, known, same⟩ := Option.map_eq_some_iff.mp found
    cases same
    obtain ⟨other, known', fields⟩ := related.get?_left known
    refine ⟨other, known, known', ?_, fields "_resolved" (by decide), ?_⟩
    · rw [Entries.get?_mapValues, known', Option.map_some]
    · rw [findParent_congr present]
      exact findParent_item none none key fields
  induction ancestry with
  | @root key mark item found first =>
      obtain ⟨other, known, known', found', settled, parent⟩ := counterpart found
      exact ⟨[(key, other)], .root found' (by rw [settled]; exact parent ▸ first),
        .cons ⟨rfl, known, known'⟩ .nil⟩
  | @child key mark item parent above found fresh next older ih =>
      obtain ⟨other, known, known', found', settled, same⟩ := counterpart found
      obtain ⟨line', ancestry', aligned⟩ := ih
      cases aligned with
      | @cons _ parent' _ above' head rest =>
          exact ⟨(key, other) :: parent' :: above',
            .child found' (settled ▸ fresh) (by rw [head.1]; exact same.trans next) ancestry',
            .cons ⟨rfl, known, known'⟩ (.cons head rest)⟩

end EventSchema.Lineage
