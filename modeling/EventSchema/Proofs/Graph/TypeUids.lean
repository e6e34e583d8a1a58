import EventSchema.Proofs.Graph.ClassUids
import EventSchema.Proofs.Graph.Finished

/-!
The types of events that a class lists.

They are listed before attributes are finished over the dictionary, for the activities that the class has
by then. Activities that only the dictionary lists have no type, and neither has an activity of
`disposition_id` in a class that has the attribute `activity_id`.
-/

set_option autoImplicit false

namespace EventSchema

open Value

namespace Text

private theorem ofNat_inj {m n : Nat} (same : ofNat m = ofNat n) : m = n := by
  have codes := congrArg Text.codes same
  have digits : Nat.toDigits 10 m = Nat.toDigits 10 n :=
    List.map_injective_iff.mpr (fun a b equal => Char.ext (UInt32.toNat_inj.mp equal)) codes
  rw [← Nat.ofDigitChars_ten_toDigits (n := m), digits, Nat.ofDigitChars_ten_toDigits]

/-- No natural number is spelled with a sign. -/
theorem ofNat_ne_minus (n : Nat) (rest : Text) : ofNat n ≠ "-" ++ rest := by
  intro same
  have codes : (Nat.toDigits 10 n).map Char.toNat = 45 :: rest.codes := congrArg Text.codes same
  have member : 45 ∈ (Nat.toDigits 10 n).map Char.toNat := codes ▸ List.mem_cons_self ..
  obtain ⟨c, digit, minus⟩ := List.mem_map.mp member
  have isDigit := Nat.isDigit_of_mem_toDigits (by decide) (by decide) digit
  obtain rfl : c = '-' := Char.ext (UInt32.toNat_inj.mp minus)
  cases isDigit

/-- Different numbers are spelled differently. -/
theorem ofInt_inj {m n : Int} (same : ofInt m = ofInt n) : m = n := by
  cases m with
  | ofNat m =>
      cases n with
      | ofNat n => exact congrArg Int.ofNat (ofNat_inj same)
      | negSucc n => exact absurd same (ofNat_ne_minus m _)
  | negSucc m =>
      cases n with
      | ofNat n => exact absurd same.symm (ofNat_ne_minus n _)
      | negSucc n =>
          have codes := congrArg Text.codes same
          rw [ofInt, ofInt, codes_append, codes_append, List.append_cancel_left_eq] at codes
          have tails : ofNat (m + 1) = ofNat (n + 1) := congrArg Text.mk codes
          rw [Nat.succ.inj (ofNat_inj tails)]

end Text

/-! ### Activities -/

namespace Draft

/-- The number of an activity that has a type: the unknown one, or one in range among the own activities. -/
def Lists (attributes : Fields) (n : Int) : Prop :=
  n = 0 ∨ 0 ≤ n ∧ n < 100 ∧ ∃ name ∈ Entries.keys (ownActivities attributes), name.parseInt? = some n

theorem Lists.short {attributes : Fields} {n : Int} (lists : Lists attributes n) : n < 100 := by
  rcases lists with rfl | ⟨_, high, _⟩
  · decide
  · exact high

/-- An activity adds the type of its number if that is in range. -/
theorem addActivity_ok {key : Text} {uid caption : Value} {types result : Fields} {activity : Text × Value}
    (ran : (addActivity key uid caption types activity).Yields result) :
    (∃ n id entry, activity.1.parseInt? = some n ∧ 0 ≤ n ∧ n < 100 ∧ Uid.activity uid (.int n) = .ok id ∧
        result = Entries.put id.shown entry types) ∨
      (∀ n, activity.1.parseInt? = some n → ¬(0 ≤ n ∧ n < 100)) ∧ result = types := by
  unfold addActivity at ran
  cases number : activity.1.parseInt? with
  | none =>
      rw [number] at ran
      obtain ⟨_, _, ran⟩ := Act.yields_bind ran
      exact Or.inr ⟨fun _ impossible => absurd impossible (Option.some_ne_none _).symm, (Act.yields_pure.mp ran).symm⟩
  | some n =>
      rw [number] at ran
      dsimp only at ran
      split at ran
      · rename_i inside
        obtain ⟨entry, _, ran⟩ := Act.yields_bind ran
        obtain ⟨id, numbered, ran⟩ := Act.yields_bind ran
        exact Or.inl ⟨n, id, entry, rfl, inside.1, inside.2, Act.yields_lift.mp numbered, (Act.yields_pure.mp ran).symm⟩
      · rename_i outside
        obtain ⟨_, _, ran⟩ := Act.yields_bind ran
        refine Or.inr ⟨fun m same => ?_, (Act.yields_pure.mp ran).symm⟩
        cases same
        exact outside

/-- The types gathered from activities are those of the numbers in range. -/
theorem has_gathered {key : Text} {uid caption : Value} {activities start result : Fields}
    (ran : (activities.foldlM (addActivity key uid caption) start).Yields result) (k : Text) :
    Entries.has k result = true ↔ Entries.has k start = true ∨ ∃ n id, (0 ≤ n ∧ n < 100 ∧
      ∃ name ∈ Entries.keys activities, name.parseInt? = some n) ∧ Uid.activity uid (.int n) = .ok id ∧ id.shown =
        k := by
  induction activities generalizing start with
  | nil =>
      rw [List.foldlM_nil, Act.yields_pure] at ran
      rw [ran]
      refine (or_iff_left ?_).symm
      rintro ⟨_, _, ⟨_, _, _, impossible, _⟩, _⟩
      cases impossible
  | cons head rest ih =>
      rw [List.foldlM_cons] at ran
      obtain ⟨middle, first, later⟩ := Act.yields_bind ran
      rw [ih later]
      rcases addActivity_ok first with ⟨n, id, entry, number, low, high, numbered, rfl⟩ | ⟨outside, rfl⟩
      · rw [Entries.has, Entries.get?_put]
        constructor
        · rintro (here | ⟨m, other, ⟨low', high', name, member, spelled⟩, rest⟩)
          · split at here
            · rename_i same
              exact Or.inr ⟨n, id, ⟨low, high, head.1, List.mem_cons_self .., number⟩, numbered, same.symm⟩
            · exact Or.inl here
          · exact Or.inr ⟨m, other, ⟨low', high', name, List.mem_cons_of_mem _ member, spelled⟩, rest⟩
        · rintro (before | ⟨m, other, ⟨low', high', name, member, spelled⟩, numbered', same⟩)
          · left
            split
            · rfl
            · exact before
          · rcases List.mem_cons.mp member with rfl | later
            · cases number.symm.trans spelled
              cases numbered.symm.trans numbered'
              exact Or.inl (by rw [if_pos same.symm]; rfl)
            · exact Or.inr ⟨m, other, ⟨low', high', name, later, spelled⟩, numbered', same⟩
      · refine or_congr Iff.rfl ⟨?_, ?_⟩
        · rintro ⟨m, other, ⟨low, high, name, member, spelled⟩, rest⟩
          exact ⟨m, other, ⟨low, high, name, List.mem_cons_of_mem _ member, spelled⟩, rest⟩
        · rintro ⟨m, other, ⟨low, high, name, member, spelled⟩, rest⟩
          rcases List.mem_cons.mp member with rfl | later
          · exact absurd ⟨low, high⟩ (outside m spelled)
          · exact ⟨m, other, ⟨low, high, name, later, spelled⟩, rest⟩

private theorem listTypes_has {key : Text} {uid caption : Value} {attributes after : Fields}
    (ran : (listTypes key uid caption attributes).Yields after) :
    ∃ types, ownField "enum" "type_uid" after = some (.record types) ∧ ∀ k, Entries.has k types = true ↔
      ∃ n id, Lists attributes n ∧ Uid.activity uid (.int n) = .ok id ∧ id.shown = k := by
  obtain ⟨types, unknown, listed, gathered, zero, wrote, rfl⟩ := listTypes_steps ran
  refine ⟨_, (ownField_setSource (by decide) ..).trans (ownField_setIn wrote), fun k => ?_⟩
  rw [Entries.has, Entries.get?_put]
  constructor
  · intro here
    split at here
    · rename_i same
      exact ⟨0, unknown, Or.inl rfl, zero, same.symm⟩
    · rcases (has_gathered gathered k).mp here with impossible | ⟨n, id, inside, rest⟩
      · cases impossible
      · exact ⟨n, id, Or.inr inside, rest⟩
  · rintro ⟨n, id, rfl | inside, numbered, same⟩
    · cases zero.symm.trans numbered
      rw [if_pos same.symm]
      rfl
    · split
      · rfl
      · exact (has_gathered gathered k).mpr (Or.inr ⟨n, id, inside, numbered, same⟩)

private theorem identify_types {draft : Draft} {key : Text} {item result : Fields}
    (ran : (identify draft key item).Yields result) :
    ∃ uid types, Entries.get? "uid" result = some uid ∧
      ownField "enum" "type_uid" (Entries.attributes result) = some (.record types) ∧
      ∀ k, Entries.has k types = true ↔ ∃ n id, Lists (Entries.attributes item) n ∧
        Uid.activity uid (.int n) = .ok id ∧ id.shown = k := by
  obtain ⟨category, whole, number, own, outer, uid, attributes, _, _, _, _, _, ⟨_, _, typed, listing, same⟩, shape⟩ :=
    identify_steps ran
  obtain ⟨types, held, listed⟩ := listTypes_has listing
  have kept : ownField "enum" "type_uid" attributes = some (.record types) := by
    rw [← held, ownField, ownField, Entries.orEmpty, Entries.orEmpty, Entries.getOr, Entries.getOr, same]
  refine ⟨uid, types, ?_⟩
  rcases shape with ⟨_, rfl⟩ | ⟨_, ⟨_, rfl⟩ | ⟨_, rfl⟩⟩
  · rw [Entries.attributes_put_record, Entries.get?_put_of_ne (by decide), Entries.get?_put_of_ne (by decide),
      Entries.get?_put_self]
    exact ⟨rfl, kept, listed⟩
  · rw [Entries.attributes_put_record, Entries.get?_put_of_ne (by decide), Entries.get?_put_self]
    exact ⟨rfl, kept, listed⟩
  · rw [Entries.attributes_put_of_ne (by decide), Entries.attributes_put_record, Entries.get?_put_of_ne (by decide),
      Entries.get?_put_of_ne (by decide), Entries.get?_put_self]
    exact ⟨rfl, kept, listed⟩

end Draft

/-! ### Finished enumerations -/

def Attribute.enumOf (name : Text) (records : Entries Attribute) : Value :=
  ((Entries.get? name records).map Attribute.enum).getD .null

/-- The activities that a class enumerates in the end: those of `activity_id` if it has some, or else those of
`disposition_id`. -/
def Entity.activities (entity : Entity) : Fields :=
  if (Attribute.enumOf "activity_id" entity.attributes).truthy then
    (Attribute.enumOf "activity_id" entity.attributes).inner
  else (Attribute.enumOf "disposition_id" entity.attributes).inner

/-- Every activity of a class has a type of events, by the uid of the class. -/
def Entity.MatchesTypes (entity : Entity) : Prop :=
  ∀ name ∈ Entries.keys entity.activities, ∀ n, name.parseInt? = some n → 0 ≤ n → n < 100 →
    ∃ id, Uid.activity entity.uid (.int n) = .ok id ∧
      Entries.has id.shown (Attribute.enumOf "type_uid" entity.attributes).inner = true

/-- The types of events of a class, by what it was flattened to: those of its activities and those of the
dictionary. So every activity has a type if it was there before the dictionary came in, or its type is of
the dictionary itself. -/
structure Graph.ListsTypes (graph : Graph) (flat : Fields) (entity : Entity) : Prop where
  keys : ∀ key, Entries.has key (Attribute.enumOf "type_uid" entity.attributes).inner = true ↔
    Entries.has key (Attribute.enumOf "type_uid" graph.dictionary.attributes).inner = true ∨
      ∃ n id, Draft.Lists (Entries.attributes flat) n ∧ Uid.activity entity.uid (.int n) = .ok id ∧ id.shown = key
  matches_iff : ∀ uid, entity.uid = .int uid → (entity.MatchesTypes ↔
    ∀ name ∈ Entries.keys entity.activities, ∀ n, name.parseInt? = some n → 0 ≤ n → n < 100 →
      Draft.Lists (Entries.attributes flat) n ∨ Entries.has (Text.ofInt (uid * 100 + n))
        (Attribute.enumOf "type_uid" graph.dictionary.attributes).inner = true)

theorem Uid.activity_int {uid n : Int} (short : n < 100) :
    activity (.int uid) (.int n) = .ok (.int (uid * 100 + n)) := by
  have inside : (Number.whole n).below 100 = true := decide_eq_true short
  unfold activity
  have number : (Value.int n).asNumber = .ok (.whole n) := asNumber_of_whole rfl
  have outer : (Value.int uid).asNumber = .ok (.whole uid) := asNumber_of_whole rfl
  rw [number, ok_bind, if_pos inside, scope_whole outer]

namespace Stages

open Draft

variable {d : Definitions} {graph : Graph} (stages : Stages d graph)

private theorem has_enum_finished {whole : Fields} {name : Text} {mark : Option Nat} {field enumeration : Fields}
    {result : Value} (distinct : Entries.Distinct field)
    (given : Entries.get? "enum" field = some (.record enumeration))
    (ran : stages.required.finishAttribute whole name (orOptional (.object mark field)) = .ok result) :
    ∃ own fields, result = .object own fields ∧ ∀ key,
      Entries.has key (Entries.orNull "enum" fields).inner = true ↔
        Entries.has key (Attribute.enumOf name graph.dictionary.attributes).inner = true ∨
          Entries.has key enumeration = true := by
  obtain ⟨inner, filled, shape, same⟩ := orOptional_object mark field
  have single : Entries.Distinct filled := by
    have kept : Entries.Distinct (orOptional (.object mark field)).inner := distinct_orOptional distinct
    rwa [shape] at kept
  rw [shape] at ran
  obtain ⟨own, fields, rfl, kept⟩ := stages.finished_fields ran
  refine ⟨own, fields, rfl, fun key => ?_⟩
  have shared : Attribute.enumOf name graph.dictionary.attributes =
      (ownField "enum" name stages.required.attributes).getD .null := by
    rw [Attribute.enumOf, stages.get?_dictionary]
    cases found : Entries.get? name stages.required.attributes with
    | none => rw [ownField_of_absent found, Option.map_none, Option.map_none]
    | some shared =>
        rw [ownField_of_get? found]
        rfl
  rw [Entries.orNull, Entries.getOr, kept "enum" (by decide),
    stages.over_given single ((same "enum" (by decide)).trans given), Option.getD_some, has_merge_record,
    inner_unshared, Entries.has, get?_unsharedFields, Option.isSome_map, shared]
  rfl

include stages in
theorem listsTypes (documents : d.Documents) {key : Text} {entity : Entity}
    (found : Entries.get? key graph.classes = some entity) :
    ∃ flat, Lineage.Flat .eventClass d.classes.inner key flat ∧ graph.ListsTypes flat entity := by
  obtain ⟨enabled, item, dated, required, result, _, held, passes, reads⟩ := stages.passes_class found
  obtain ⟨flat, identified, computed, identifying, attributes, frame⟩ := stages.identified_class held
  obtain ⟨_, _, preserved⟩ := stages.preserved_class documents held
  obtain ⟨uid, types, numbered, listing, listed⟩ := identify_types identifying
  obtain ⟨siblings, collected, treated, beside, _⟩ := passes.steps
  have own : entity.uid = uid := by
    rw [(identity_of_ofFields reads).2.1, Entries.orNull, Entries.getOr, beside "uid" (by decide),
      frame "uid" (by decide),
      numbered, Option.getD_some]
  have keys (key : Text) : Entries.has key (Attribute.enumOf "type_uid" entity.attributes).inner = true ↔
      Entries.has key (Attribute.enumOf "type_uid" graph.dictionary.attributes).inner = true ∨
        ∃ n id, Lists (Entries.attributes flat) n ∧ Uid.activity entity.uid (.int n) = .ok id ∧ id.shown = key := by
    rw [← attributes] at listing
    cases present : Entries.get? "type_uid" (Entries.attributes item) with
    | none =>
        rw [ownField_of_absent present] at listing
        cases listing
    | some value =>
        rw [ownField_of_get? present] at listing
        cases value with
        | object mark field =>
            have kept : Entries.get? "type_uid" (withSiblings (Entries.attributes item) siblings) =
                some (.object mark field) := by
              rcases collected with ⟨_, rfl⟩ | ⟨_, each⟩
              · exact present
              · exact get?_addSiblings each present
            obtain ⟨last, known, ran⟩ := treated.get?_left kept
            obtain ⟨_, fields, rfl, has⟩ := stages.has_enum_finished
              (inPlace_object.mp (preserved.inPlace _ (Entries.mem_of_get? present))).2 listing ran
            have record : Attribute.enumOf "type_uid" entity.attributes = Entries.orNull "enum" fields := by
              rw [Attribute.enumOf, (readsItem_of_ok reads).attributes, Attribute.get?_ofValues known]
              rfl
            rw [record, has, listed, own]
        | null | bool _ | int _ | float _ | text _ | array _ => cases listing
  refine ⟨flat, stages.inner_rawClasses ▸ computed, keys, fun uid whole => ?_⟩
  unfold Entity.MatchesTypes
  refine forall₂_congr fun name _ => forall₂_congr fun n _ => forall₂_congr fun low high => ?_
  rw [whole, Uid.activity_int high]
  simp only [whole] at keys
  constructor
  · rintro ⟨id, same, has⟩
    cases same
    rcases (keys _).mp has with shared | ⟨m, id, lists, numbered, same⟩
    · exact Or.inr shared
    · rw [Uid.activity_int lists.short] at numbered
      cases numbered
      have equal := Text.ofInt_inj same
      obtain rfl : m = n := by omega
      exact Or.inl lists
  · rintro (lists | shared)
    · exact ⟨_, rfl, (keys _).mpr (Or.inr ⟨n, _, lists, Uid.activity_int high, rfl⟩)⟩
    · exact ⟨_, rfl, (keys _).mpr (Or.inl shared)⟩

end Stages

/-- The types of events that the classes of a graph list. -/
theorem Graph.type_uids {d : Definitions} {graph : Graph} (documents : d.Documents)
    (built : (Graph.ofDefinitions d).Yields graph) {key : Text} {entity : Entity}
    (found : Entries.get? key graph.classes = some entity) :
    ∃ flat, Lineage.Flat .eventClass d.classes.inner key flat ∧ graph.ListsTypes flat entity := by
  obtain ⟨stages⟩ := exists_stages built
  exact stages.listsTypes documents found

namespace Graph

/-- A class with an activity of its own and one that only the dictionary lists. -/
def numbering : Definitions where
  version := .text "1.0.0"
  categories := .record []
  dictionary := .record [
    ("attributes", .record [
      ("activity_id", .record [("type", .text "integer_t"), ("enum", .record [("1", .record [])])])]),
    ("types", .record [("attributes", .record [("integer_t", .record [])])])]
  classes := .record [("base_event", .record [("attributes", .record [
    ("activity_id", .record [("enum", .record [("2", .record [])])])])])]
  objects := .record []
  profiles := .record []
  extensions := []

private theorem documents_numbering : numbering.Documents :=
  Definitions.documents_of_written (by decide) (by decide) (by decide) (by decide) (by decide)

/-- The uid of a class, whether it has an activity in the end, and whether it lists a type under a key. -/
def activityOf (name key : Text) (graph : Graph) : Option (Value × Bool × Bool) :=
  (Entries.get? "base_event" graph.classes).map fun entity => (entity.uid, Entries.has name entity.activities,
    Entries.has key (Attribute.enumOf "type_uid" entity.attributes).inner)

theorem type_uids_fail_numbering : ∃ graph entity, (ofDefinitions numbering).Yields graph ∧
    Entries.get? "base_event" graph.classes = some entity ∧ ¬entity.MatchesTypes := by
  have evaluated : ((ofDefinitions numbering).outcome {}).1.toOption.map (activityOf "1" "1") =
      some (some (.int 0, true, false)) := by
    decide +kernel
  obtain ⟨graph, built, shown⟩ := Act.exists_of_outcome evaluated
  obtain ⟨entity, found, told⟩ := Option.map_eq_some_iff.mp shown
  obtain ⟨uid, told⟩ := Prod.mk.inj told
  obtain ⟨enumerated, unlisted⟩ := Prod.mk.inj told
  refine ⟨graph, entity, built, found, fun matched => ?_⟩
  obtain ⟨id, numbered, has⟩ := matched "1" (Entries.has_iff_mem_keys.mp enumerated) 1 (by decide) (by decide)
    (by decide)
  rw [uid, Uid.activity_int (by decide)] at numbered
  cases numbered
  exact Bool.false_ne_true (unlisted.symm.trans has)

theorem type_uids_numbering : ∃ graph entity, (ofDefinitions numbering).Yields graph ∧
    Entries.get? "base_event" graph.classes = some entity ∧
    Entries.has "2" (Attribute.enumOf "type_uid" entity.attributes).inner = true := by
  have evaluated : ((ofDefinitions numbering).outcome {}).1.toOption.map (activityOf "2" "2") =
      some (some (.int 0, true, true)) := by
    decide +kernel
  obtain ⟨graph, built, shown⟩ := Act.exists_of_outcome evaluated
  obtain ⟨entity, found, told⟩ := Option.map_eq_some_iff.mp shown
  obtain ⟨uid, _⟩ := Prod.mk.inj told
  obtain ⟨flat, computed, lists⟩ := type_uids documents_numbering built found
  have own : Draft.Lists (Entries.attributes flat) 2 := by
    obtain rfl : flat = _ := computed.unique ⟨_, [], .root rfl (Or.inr rfl), rfl⟩
    exact Or.inr ⟨by decide, by decide, "2", List.mem_singleton_self _, by decide⟩
  refine ⟨graph, entity, built, found, (lists.keys _).mpr (Or.inr ⟨2, .int 2, own, ?_, rfl⟩)⟩
  rw [uid]
  exact Uid.activity_int (by decide)

end Graph

end EventSchema
