import EventSchema.Draft.Datetime
import EventSchema.Proofs.Draft.Attributes
import EventSchema.Proofs.Profiles
import EventSchema.Proofs.Value.Plain

/-!
What adding siblings does to an item.

The siblings come behind the attributes that are there, and an item that gets one has the profile
`datetime` among its profiles. Nothing else changes. So where two items have the same attributes, they
have the same siblings.
-/

set_option autoImplicit false

namespace EventSchema.Draft

def withSiblings (attributes siblings : Fields) : Fields :=
  siblings.foldl (fun all sibling => Entries.put sibling.1 sibling.2 all) attributes

theorem distinct_withSiblings {attributes : Fields} (distinct : Entries.Distinct attributes)
    (siblings : Fields) : Entries.Distinct (withSiblings attributes siblings) := by
  induction siblings generalizing attributes with
  | nil => exact distinct
  | cons head rest ih => exact ih (distinct.put head.1 head.2)

theorem mem_of_mem_withSiblings {attributes siblings : Fields} {entry : Text × Value}
    (member : entry ∈ withSiblings attributes siblings) : entry ∈ attributes ∨ entry ∈ siblings := by
  induction siblings generalizing attributes with
  | nil => exact Or.inl member
  | cons head rest ih =>
      rcases ih member with written | later
      · rcases Entries.mem_of_mem_put written with here | before
        · exact Or.inr (here ▸ List.mem_cons_self ..)
        · exact Or.inl before
      · exact Or.inr (List.mem_cons_of_mem _ later)

theorem mem_keys_withSiblings {attributes : Fields} {name : Text}
    (known : name ∈ Entries.keys attributes) (siblings : Fields) :
    name ∈ Entries.keys (withSiblings attributes siblings) := by
  induction siblings generalizing attributes with
  | nil => exact known
  | cons head rest ih =>
      apply ih
      rw [Entries.keys_put]
      split
      · exact known
      · exact List.mem_append_left _ known

theorem key_mem_withSiblings {attributes siblings : Fields} {sibling : Text × Value}
    (member : sibling ∈ siblings) : sibling.1 ∈ Entries.keys (withSiblings attributes siblings) := by
  induction siblings generalizing attributes with
  | nil => cases member
  | cons head rest ih =>
      rcases List.mem_cons.mp member with rfl | later
      · refine mem_keys_withSiblings ?_ rest
        exact Entries.mem_keys_of_get? (Entries.get?_put_self ..)
      · exact ih later

theorem siblingOf?_name {draft : Draft} {attributes : Fields} {entry sibling : Text × Value}
    (ran : draft.siblingOf? attributes entry = .ok (some sibling)) :
    sibling.1 = datetimeName entry.1 := by
  unfold siblingOf? at ran
  obtain ⟨_, _, ran⟩ := bind_eq_ok.mp ran
  obtain ⟨_, _, ran⟩ := bind_eq_ok.mp ran
  dsimp only at ran
  split at ran
  · rw [pure_eq_ok, Option.some.injEq] at ran
    rw [← ran]
  · cases ran

private theorem siblingOf?_absent {draft : Draft} {attributes : Fields} {entry sibling : Text × Value}
    (ran : draft.siblingOf? attributes entry = .ok (some sibling)) :
    Entries.has sibling.1 attributes = false := by
  unfold siblingOf? at ran
  obtain ⟨_, _, ran⟩ := bind_eq_ok.mp ran
  obtain ⟨_, _, ran⟩ := bind_eq_ok.mp ran
  dsimp only at ran
  split at ran
  · rename_i missing
    rw [pure_eq_ok, Option.some.injEq] at ran
    rw [← ran, ← Bool.not_eq_true']
    exact (Bool.and_eq_true_iff.mp missing).2
  · cases ran

private theorem get?_withSiblings {attributes siblings : Fields} {name : Text}
    (apart : ∀ sibling ∈ siblings, sibling.1 ≠ name) :
    Entries.get? name (withSiblings attributes siblings) = Entries.get? name attributes := by
  induction siblings generalizing attributes with
  | nil => rfl
  | cons head rest ih =>
      obtain ⟨first, others⟩ := List.forall_mem_cons.mp apart
      exact (ih others).trans (Entries.get?_put_of_ne first ..)

theorem get?_addSiblings {draft : Draft} {attributes siblings : Fields} {name : Text} {value : Value}
    (collected : attributes.filterMapM (draft.siblingOf? attributes) = .ok siblings)
    (found : Entries.get? name attributes = some value) :
    Entries.get? name (withSiblings attributes siblings) = some value := by
  rw [get?_withSiblings, found]
  rintro sibling member rfl
  obtain ⟨_, _, made⟩ := exists_of_filterMapM collected member
  have absent := siblingOf?_absent made
  rw [Entries.has, found] at absent
  cases absent

theorem datetimeName_inj {name other : Text} (same : datetimeName name = datetimeName other) :
    name = other := by
  have codes := congrArg Text.codes same
  simp only [datetimeName, Text.codes_append, List.append_left_inj] at codes
  cases name
  cases other
  exact congrArg Text.mk codes

private theorem siblingOf?_congr {draft other : Draft} {attributes others : Fields}
    {entry sibling sibling' : Text × Value}
    (ran : draft.siblingOf? attributes entry = .ok (some sibling))
    (ran' : other.siblingOf? others entry = .ok (some sibling')) : sibling' = sibling := by
  unfold siblingOf? at ran ran'
  obtain ⟨field, opened, ran⟩ := bind_eq_ok.mp ran
  obtain ⟨field', opened', ran'⟩ := bind_eq_ok.mp ran'
  obtain ⟨_, _, ran⟩ := bind_eq_ok.mp ran
  obtain ⟨_, _, ran'⟩ := bind_eq_ok.mp ran'
  cases opened.symm.trans opened'
  dsimp only at ran ran'
  split at ran
  · split at ran'
    · rw [← Option.some.inj (pure_eq_ok.mp ran), ← Option.some.inj (pure_eq_ok.mp ran')]
    · cases ran'
  · cases ran

private theorem siblingOf?_unshared (draft : Draft) (attributes : Fields) (name : Text) (value : Value) :
    draft.siblingOf? attributes (name, value.unshared) = draft.siblingOf? attributes (name, value) := by
  unfold siblingOf?
  dsimp only
  rw [Value.plain_unshared value]

/-- The type that an attribute is taken to have: its own if that is given, or that of the dictionary. -/
def toldType (draft : Draft) (name : Text) (own : Value) : Value :=
  if own.truthy then own else Entries.orNull "type" (Entries.orEmpty name draft.attributes).inner

private theorem typeOf_unshared {draft : Draft} {name : Text} {field : Fields} {type : Value}
    (ran : draft.typeOf name (Value.unsharedFields field) = .ok type) (text : Text) :
    type = .text text ↔ toldType draft name (Entries.orNull "type" field) = .text text := by
  have own : Entries.orNull "type" (Value.unsharedFields field) = (Entries.orNull "type" field).unshared := by
    rw [Entries.orNull, Entries.getOr, Value.get?_unsharedFields, Entries.orNull, Entries.getOr]
    cases Entries.get? "type" field <;> rfl
  unfold typeOf at ran
  dsimp only at ran
  rw [own, Value.truthy_unshared] at ran
  unfold toldType
  split at ran
  · rename_i given
    rw [← pure_eq_ok.mp ran, if_pos given]
    refine ⟨Value.text_of_unshared, fun same => ?_⟩
    rw [same]
    exact Value.plain_text text
  · rename_i missing
    obtain ⟨fields, opened, ran⟩ := bind_eq_ok.mp ran
    obtain ⟨mark, shared⟩ := Value.inner_of_asFields opened
    rw [← pure_eq_ok.mp ran, if_neg missing, shared, Value.inner]

/-- An attribute gets a sibling exactly if it is taken to be a timestamp and the place is free. -/
theorem siblingOf?_iff {draft : Draft} {attributes field : Fields} {origin : Text} {mark : Option Nat}
    {found : Option (Text × Value)}
    (ran : draft.siblingOf? attributes (origin, .object mark field) = .ok found) :
    found.isSome = true ↔ toldType draft origin (Entries.orNull "type" field) = .text "timestamp_t" ∧
      Entries.has (datetimeName origin) attributes = false := by
  unfold siblingOf? at ran
  rw [Value.unshared, Value.asFields, ok_bind] at ran
  obtain ⟨type, told, ran⟩ := bind_eq_ok.mp ran
  rw [← typeOf_unshared told]
  dsimp only at ran
  split at ran
  · rename_i made
    obtain ⟨timestamp, free⟩ := Bool.and_eq_true_iff.mp made
    rw [← pure_eq_ok.mp ran]
    rw [Bool.not_eq_true'] at free
    exact ⟨fun _ => ⟨Value.equals_text.mp timestamp, free⟩, fun _ => rfl⟩
  · rename_i unmade
    rw [← pure_eq_ok.mp ran]
    constructor
    · rintro ⟨⟩
    · intro both
      rw [Bool.and_eq_true_iff, Value.equals_text, Bool.not_eq_true'] at unmade
      exact absurd both unmade

theorem has_addSiblings {draft : Draft} {attributes siblings : Fields} {name : Text}
    (objects : ∀ entry ∈ attributes, entry.2.isObject = true)
    (collected : attributes.filterMapM (draft.siblingOf? attributes) = .ok siblings) :
    Entries.has name (withSiblings attributes siblings) = true ↔ Entries.has name attributes = true ∨
      ∃ origin value, (origin, value) ∈ attributes ∧ name = datetimeName origin ∧
        toldType draft origin (Entries.orNull "type" value.inner) = .text "timestamp_t" := by
  constructor
  · intro held
    obtain ⟨value, found⟩ := Option.isSome_iff_exists.mp held
    rcases mem_of_mem_withSiblings (Entries.mem_of_get? found) with old | new
    · exact Or.inl (Entries.has_iff_mem_keys.mpr (List.mem_map_of_mem old))
    · obtain ⟨⟨origin, before⟩, member, made⟩ := exists_of_filterMapM collected new
      have shape := objects _ member
      cases before with
      | object mark field =>
          exact Or.inr ⟨origin, _, member, siblingOf?_name made, ((siblingOf?_iff made).mp rfl).1⟩
      | null | bool _ | int _ | float _ | text _ | array _ => cases shape
  · rintro (held | ⟨origin, value, member, rfl, timestamp⟩)
    · exact Entries.has_iff_mem_keys.mpr (mem_keys_withSiblings (Entries.has_iff_mem_keys.mp held) siblings)
    · by_cases taken : Entries.has (datetimeName origin) attributes = true
      · exact Entries.has_iff_mem_keys.mpr
          (mem_keys_withSiblings (Entries.has_iff_mem_keys.mp taken) siblings)
      · have shape := objects _ member
        cases value with
        | object mark field =>
            obtain ⟨found, made, listed⟩ := mem_of_filterMapM collected member
            obtain ⟨sibling, same⟩ := Option.isSome_iff_exists.mp
              ((siblingOf?_iff made).mpr ⟨timestamp, Bool.eq_false_iff.mpr taken⟩)
            subst same
            rw [← siblingOf?_name made]
            exact Entries.has_iff_mem_keys.mpr (key_mem_withSiblings (listed _ rfl))
        | null | bool _ | int _ | float _ | text _ | array _ => cases shape

def SiblingsOf (draft : Draft) (attributes siblings : Fields) : Prop :=
  siblings = [] ∨ attributes.filterMapM (draft.siblingOf? attributes) = .ok siblings

theorem SiblingsOf.get? {draft : Draft} {attributes siblings : Fields} {name : Text} {value : Value}
    (added : SiblingsOf draft attributes siblings) (distinct : Entries.Distinct attributes)
    (found : Entries.get? name (withSiblings attributes siblings) = some value) :
    Entries.get? name attributes = some value ∨ Entries.get? name attributes = none ∧
      ∃ origin before, name = datetimeName origin ∧ Entries.get? origin attributes = some before ∧
        draft.siblingOf? attributes (origin, before) = .ok (some (name, value)) := by
  rcases added with rfl | collected
  · exact Or.inl found
  · cases known : Entries.get? name attributes with
    | some before => exact Or.inl ((get?_addSiblings collected known).symm.trans found)
    | none =>
        rcases mem_of_mem_withSiblings (Entries.mem_of_get? found) with old | new
        · cases known.symm.trans (Entries.get?_of_mem distinct old)
        · obtain ⟨⟨origin, before⟩, member, made⟩ := exists_of_filterMapM collected new
          exact Or.inr ⟨rfl, origin, before, siblingOf?_name made, Entries.get?_of_mem distinct member, made⟩

/-- Two sets of attributes that are the same, shared or not, but for touched ones are the same with their
siblings, but for the siblings of touched attributes as well. -/
theorem SiblingsOf.agree {draft other : Draft} {attributes others siblings siblings' : Fields}
    {touched : List Text} (added : SiblingsOf draft attributes siblings)
    (added' : SiblingsOf other others siblings') (distinct : Entries.Distinct attributes)
    (distinct' : Entries.Distinct others)
    (same : Entries.SameBeside touched (Value.unsharedFields attributes) (Value.unsharedFields others)) {name : Text}
    (untouched : name ∉ touched)
    (apart : Entries.has name others = true ∨ ∀ origin ∈ touched, name ≠ datetimeName origin)
    {value value' : Value} (found : Entries.get? name (withSiblings attributes siblings) = some value)
    (found' : Entries.get? name (withSiblings others siblings') = some value') :
    value'.unshared = value.unshared := by
  have told (name : Text) (free : name ∉ touched) :
      (Entries.get? name others).map Value.unshared = (Entries.get? name attributes).map Value.unshared := by
    rw [← Value.get?_unsharedFields, ← Value.get?_unsharedFields]
    exact same name free
  have shared := told name untouched
  rcases added.get? distinct found with known | ⟨absent, origin, before, named, held, made⟩
  · rcases added'.get? distinct' found' with known' | ⟨absent', _⟩
    · rw [known, known'] at shared
      exact Option.some.inj shared
    · rw [known, absent'] at shared
      cases shared
  · rcases added'.get? distinct' found' with known' | ⟨absent', origin', before', named', held', made'⟩
    · rw [absent, known'] at shared
      cases shared
    · cases datetimeName_inj (named.symm.trans named')
      have free : origin ∉ touched := fun member => by
        rcases apart with has | apart
        · rw [Entries.has, absent'] at has
          cases has
        · exact apart origin member named
      have copies := told origin free
      rw [held, held'] at copies
      rw [← siblingOf?_unshared, Option.some.inj copies, siblingOf?_unshared] at made'
      cases siblingOf?_congr made made'
      rfl

theorem addSiblings_ok {draft : Draft} {item result : Fields}
    (ran : draft.addSiblings item = .ok result) :
    ∃ siblings,
      (Entries.attributes item).filterMapM (draft.siblingOf? (Entries.attributes item)) =
        .ok siblings ∧
      Entries.attributes result = withSiblings (Entries.attributes item) siblings ∧
      Entries.profiles result = (if siblings = [] then Entries.profiles item
        else Value.addNew [] (Entries.profiles item ++ [.text "datetime"])) ∧
      ∀ field : Text, field ≠ "attributes" → field ≠ "profiles" →
        Entries.get? field result = Entries.get? field item := by
  unfold addSiblings at ran
  obtain ⟨attributes, found, ran⟩ := bind_eq_ok.mp ran
  obtain ⟨siblings, collected, ran⟩ := bind_eq_ok.mp ran
  have own : Entries.attributes item = attributes := by
    rw [← attributes_putNew, attributes_of_ok found]
  have frame : ∀ field : Text, field ≠ "attributes" →
      Entries.get? field (Entries.putNew "attributes" (.record []) item) =
        Entries.get? field item := by
    intro field other
    rw [Entries.get?_putNew, if_neg fun both => other both.1]
  have profiled : Entries.profiles (Entries.putNew "attributes" (.record []) item) =
      Entries.profiles item := by
    rw [Entries.profiles, frame "profiles" (by decide), Entries.profiles]
  rw [own]
  refine ⟨siblings, collected, ?_⟩
  cases siblings with
  | nil =>
      rw [← pure_eq_ok.mp ran, attributes_putNew, own, if_pos rfl, profiled]
      exact ⟨rfl, rfl, fun field other _ => frame field other⟩
  | cons head rest =>
      obtain ⟨profiles, merged, ran⟩ := bind_eq_ok.mp ran
      obtain ⟨all, listed, told⟩ := mergeProfiles_eq_ok.mp merged
      rw [mapM_eq_ok] at listed
      obtain ⟨held, others, first, later, rfl⟩ := List.forall₂_cons_left_iff.mp listed
      obtain ⟨added, none, second, last, rfl⟩ := List.forall₂_cons_left_iff.mp later
      rw [List.forall₂_nil_left_iff] at last
      have before : Entries.profiles item = held := profiled.symm.trans (Entries.profiles_of_ok first)
      have datetime : added = [.text "datetime"] := (Except.ok.inj second).symm
      rw [← pure_eq_ok.mp ran, if_neg (List.cons_ne_nil head rest), Entries.profiles_put,
        Entries.attributes_put_of_ne (by decide), Entries.attributes_put_record]
      refine ⟨rfl, ?_, fun field other another => ?_⟩
      · rw [told, last, before, datetime, List.flatten_cons, List.flatten_cons, List.flatten_nil,
          List.append_nil]
      · rw [Entries.get?_put_of_ne (Ne.symm another), Entries.get?_put_of_ne (Ne.symm other),
          frame field other]

end EventSchema.Draft
