import EventSchema.Draft.Attributes
import EventSchema.Draft.Profiles
import EventSchema.Proofs.Outcome
import EventSchema.Proofs.Scope
import EventSchema.Proofs.Value.Plain

/-!
What filling in requirements and finishing do to the attributes of an item.

A pass finds the attributes of an item as they are. Both passes treat them one by one under the names that
they have, and leave the other fields of the item alone.
-/

set_option autoImplicit false

namespace EventSchema.Draft

theorem attributes_of_ok {item attributes : Fields} (found : attributesOf item = .ok attributes) :
    Entries.attributes item = attributes := by
  unfold attributesOf Entries.orEmpty Entries.getOr at found
  unfold Entries.attributes
  cases held : Entries.get? "attributes" item with
  | none =>
      rw [held] at found
      exact Except.ok.inj found
  | some value =>
      rw [held] at found
      cases value with
      | object mark fields => exact Except.ok.inj found
      | null | bool _ | int _ | float _ | text _ | array _ => cases found

theorem attributes_putNew (item : Fields) :
    Entries.attributes (Entries.putNew "attributes" (.record []) item) =
      Entries.attributes item := by
  unfold Entries.attributes
  rw [Entries.get?_putNew]
  cases held : Entries.get? "attributes" item with
  | none =>
      rw [if_pos ⟨rfl, rfl⟩]
      rfl
  | some value =>
      rw [if_neg]
      rintro ⟨_, absent⟩
      cases absent

variable {item result : Fields}

/-- An attribute that is filled in has nothing changed but its requirement. -/
def FilledIn (value filled : Value) : Prop :=
  filled = value ∨ ∃ mark field, value = .object mark field ∧
    filled = .record (Entries.put "requirement" (.text "optional") field)

def orOptional : Value → Value
  | .object mark field =>
    if (Entries.orNull "requirement" field).isNull then
      .record (Entries.put "requirement" (.text "optional") field)
    else .object mark field
  | value => value

private theorem filledIn_orOptional (value : Value) : FilledIn value (orOptional value) := by
  cases value with
  | object mark field =>
      rw [orOptional]
      split
      · exact Or.inr ⟨mark, field, rfl, rfl⟩
      · exact Or.inl rfl
  | null | bool _ | int _ | float _ | text _ | array _ => exact Or.inl rfl

theorem fillRequirements_ok {attributes : Fields} {filled : Fields × List Text}
    (ran : fillRequirements attributes = .ok filled) :
    filled.1 = Entries.mapValues orOptional attributes := by
  unfold fillRequirements at ran
  obtain ⟨each, treated, ran⟩ := bind_eq_ok.mp ran
  rw [← pure_eq_ok.mp ran]
  refine Entries.Related.eq_mapValues (List.forall₂_map_right_iff.mpr ((mapM_eq_ok.mp treated).imp ?_))
  rintro ⟨name, value⟩ result one
  obtain ⟨field, opened, one⟩ := bind_eq_ok.mp one
  obtain ⟨mark, rfl⟩ := Value.inner_of_asFields opened
  cases opened
  split at one
  · rename_i missing
    rw [← pure_eq_ok.mp one]
    exact ⟨rfl, (if_pos missing).symm⟩
  · rename_i given
    rw [← pure_eq_ok.mp one]
    exact ⟨rfl, (if_neg given).symm⟩

theorem attributes_requireItem {kind : ItemKind} {key : Text} {missing : Option Text}
    (ran : requireItem kind key item = .ok (result, missing)) :
    Entries.attributes result = Entries.mapValues orOptional (Entries.attributes item) ∧
      ∀ field : Text, field ≠ "attributes" → Entries.get? field result = Entries.get? field item := by
  unfold requireItem at ran
  cases held : Entries.get? "attributes" item with
  | none =>
      rw [held] at ran
      have same : item = result := congrArg Prod.fst (pure_eq_ok.mp ran)
      have none : Entries.attributes item = [] := by rw [Entries.attributes, held]
      rw [← same, none]
      exact ⟨rfl, fun _ _ => rfl⟩
  | some value =>
      rw [held] at ran
      obtain ⟨attributes, opened, ran⟩ := bind_eq_ok.mp ran
      obtain ⟨⟨filled, names⟩, treated, ran⟩ := bind_eq_ok.mp ran
      have own : Entries.attributes item = attributes := by
        rw [Entries.attributes, held]
        cases value with
        | object mark fields => exact Except.ok.inj opened
        | null | bool _ | int _ | float _ | text _ | array _ => cases opened
      have same : result = Entries.put "attributes" (.record filled) item := by
        dsimp only at ran
        split at ran
        · exact (congrArg Prod.fst (pure_eq_ok.mp ran)).symm
        · exact (congrArg Prod.fst (pure_eq_ok.mp ran)).symm
      rw [same, own, Entries.attributes_put_record]
      exact ⟨fillRequirements_ok treated, fun _ other => Entries.get?_put_of_ne (Ne.symm other) ..⟩

theorem requireItem_ok {kind : ItemKind} {key : Text} {missing : Option Text}
    (ran : requireItem kind key item = .ok (result, missing)) :
    Entries.Related (fun _ => FilledIn) (Entries.attributes item) (Entries.attributes result) ∧
      ∀ field : Text, field ≠ "attributes" → Entries.get? field result = Entries.get? field item := by
  obtain ⟨attributes, frame⟩ := attributes_requireItem ran
  rw [attributes]
  exact ⟨Entries.related_mapValues fun entry _ => filledIn_orOptional entry.2, frame⟩

theorem finishItem_ok {draft : Draft} (ran : draft.finishItem item = .ok result) :
    Entries.Related (fun name value finished => draft.finishAttribute item name value = .ok finished)
        (Entries.attributes item) (Entries.attributes result) ∧
      ∀ field : Text, field ≠ "attributes" → Entries.get? field result = Entries.get? field item := by
  unfold finishItem at ran
  obtain ⟨attributes, found, ran⟩ := bind_eq_ok.mp ran
  obtain ⟨finished, each, ran⟩ := bind_eq_ok.mp ran
  rw [← pure_eq_ok.mp ran, Entries.attributes_put_record, attributes_of_ok found]
  exact ⟨Entries.mapM_eq_ok.mp each, fun _ other => Entries.get?_put_of_ne (Ne.symm other) ..⟩

/-! ### The object that a finished attribute refers to -/

def SourcedIf (asked : Fields → Prop) (value : Value) : Prop :=
  ∀ mark field, value = .object mark field →
    mark = none ∧ Entries.Distinct field ∧ (asked field →
      ∃ source : Text, Entries.get? "_source" field = some (.text source) ∧
        (Value.text source).truthy = true)

def Referring : Value → Prop := SourcedIf fun field => Entries.has "object_type" field = true

private theorem extensionOf_sourced {field : Fields} {source : Text}
    (named : Entries.get? "_source" field = some (.text source))
    (given : (Value.text source).truthy = true) (item other : Fields) :
    extensionOf field item = extensionOf field other := by
  have told : Entries.orNull "_source" field = .text source := by
    rw [Entries.orNull, Entries.getOr, named, Option.getD_some]
  unfold extensionOf
  dsimp only
  rw [told, given]
  rfl

theorem Referring.filledIn {value filled : Value} (referring : Referring value)
    (same : FilledIn value filled) : Referring filled := by
  rcases same with unchanged | ⟨mark, field, before, after⟩
  · exact unchanged ▸ referring
  · obtain ⟨_, distinct, sourced⟩ := referring mark field before
    intro other written shape
    rw [after] at shape
    injection shape with unmarked same
    rw [← same]
    refine ⟨unmarked.symm, distinct.put _ _, fun given => ?_⟩
    dsimp only at given
    rw [Entries.has, Entries.get?_put_of_ne (by decide)] at given
    rw [Entries.get?_put_of_ne (by decide)]
    exact sourced given

theorem objectTypeOf_filledIn {draft : Draft} {name : Text} {value filled : Value}
    (same : FilledIn value filled) :
    objectTypeOf draft (name, filled) = objectTypeOf draft (name, value) := by
  rcases same with unchanged | ⟨mark, field, before, after⟩
  · rw [unchanged]
  · have kept {key : Text} (other : "requirement" ≠ key) :
        Entries.orNull key (Entries.put "requirement" (.text "optional") field) =
          Entries.orNull key field := by
      rw [Entries.orNull, Entries.getOr, Entries.get?_put_of_ne other]
      rfl
    have extension : extensionOf (Entries.put "requirement" (.text "optional") field) [] =
        extensionOf field [] := by
      unfold extensionOf
      rw [kept (by decide), Entries.get?_put_of_ne (by decide)]
    rw [before, after]
    unfold objectTypeOf
    simp only [Value.record, Value.asFields, ok_bind]
    rw [kept (by decide), extension]

/-- A name that is a key means something in every scope. -/
theorem find?_ne_none {α : Type} {entries : Entries α} {key : Text} {scope : Option Value}
    (named : (Value.text key).truthy = true) (present : Entries.has key entries = true) :
    Scope.find? entries (.text key) scope ≠ .ok none :=
  Scope.findBy_ne_none named (congrArg Except.ok present)

theorem text_of_merge {dest source : Value} {text : Text}
    (same : Value.merge dest source = .text text) : source = .text text := by
  cases source with
  | object mark fields => cases dest <;> cases same
  | null | bool _ | int _ | float _ | text _ | array _ => exact same

private theorem objectType_merged {shared : Option Value} {own mark : Option Nat} {field finished : Fields}
    {key : Text} (distinct : Entries.Distinct field)
    (merged : (match shared with
      | some shared => Value.mergeInto shared.unshared (.object own field)
      | none => .object own field) = .object mark finished)
    (refers : Entries.orNull "object_type" finished = .text key) :
    Entries.get? "object_type" field = some (.text key) ∨
      Entries.get? "object_type" field = none ∧
        ∃ inner known, shared = some (.object inner known) ∧
          Entries.get? "object_type" known = some (.text key) := by
  have found : Entries.get? "object_type" finished = some (.text key) := by
    unfold Entries.orNull Entries.getOr at refers
    cases held : Entries.get? "object_type" finished with
    | none =>
        rw [held] at refers
        cases refers
    | some value =>
        rw [held, Option.getD_some] at refers
        rw [refers]
  cases shared with
  | none =>
      injection merged with _ same
      exact Or.inl (same ▸ found)
  | some shared =>
      cases shared with
      | object inner known =>
          dsimp only at merged
          rw [Value.unshared, Value.mergeInto, Value.merge_object] at merged
          injection merged with _ same
          rw [← same, Value.get?_mergeFields _ _ distinct, Value.get?_unsharedFields] at found
          cases said : Entries.get? "object_type" field with
          | some value =>
              rw [said] at found
              left
              cases told : Entries.get? "object_type" known with
              | none =>
                  rw [told] at found
                  exact found
              | some before =>
                  rw [told] at found
                  rw [text_of_merge (Option.some.inj found)]
          | none =>
              rw [said] at found
              obtain ⟨value, told, same⟩ := Option.map_eq_some_iff.mp found
              right
              exact ⟨rfl, inner, known, rfl, Value.text_of_unshared same ▸ told⟩
      | null | bool _ | int _ | float _ | text _ | array _ => cases merged

/-- Finishing finds the object that the walk along attributes has found. -/
theorem objectTypeOf_of_finished {draft : Draft} {name key : Text} {value : Value}
    {mark : Option Nat} {finished : Fields} (referring : Referring value)
    (ran : draft.finishAttribute item name value = .ok (.object mark finished))
    (refers : Entries.orNull "object_type" finished = .text key)
    (named : (Value.text key).truthy = true) (present : Entries.has key draft.objects = true) :
    objectTypeOf draft (name, value) = .ok (.text key) := by
  unfold finishAttribute at ran
  obtain ⟨field, opened, ran⟩ := bind_eq_ok.mp ran
  obtain ⟨own, rfl⟩ : ∃ own, value = .object own field := by
    cases value with
    | object own fields => exact ⟨own, by rw [Except.ok.inj opened]⟩
    | null | bool _ | int _ | float _ | text _ | array _ => cases opened
  obtain ⟨_, distinct, sourced⟩ := referring own field rfl
  unfold objectTypeOf
  simp only [Value.asFields, ok_bind]
  dsimp only at ran
  by_cases given : (Entries.orNull "object_type" field).truthy = true
  · rw [if_pos given] at ran ⊢
    have has : Entries.has "object_type" field = true := by
      cases held : Entries.get? "object_type" field with
      | none =>
          rw [Entries.orNull, Entries.getOr, held] at given
          cases given
      | some type =>
          rw [Entries.has, held]
          rfl
    obtain ⟨source, told, truthy⟩ := sourced has
    obtain ⟨scope, ranScope, ran⟩ := bind_eq_ok.mp ran
    obtain ⟨found, looked, ran⟩ := bind_eq_ok.mp ran
    rw [extensionOf_sourced told truthy [] item, ranScope, ok_bind, looked, ok_bind]
    cases found with
    | some referred =>
        obtain ⟨_, _, ran⟩ := bind_eq_ok.mp ran
        obtain ⟨written, wrote, ran⟩ := bind_eq_ok.mp ran
        obtain ⟨_, _, wrote⟩ := bind_eq_ok.mp wrote
        rw [pure_eq_ok] at ran wrote
        injection ran with _ same
        rw [← same, ← wrote, Entries.orNull, Entries.getOr,
          Entries.get?_put_of_ne (by decide), Entries.get?_put_self] at refers
        rw [Option.getD_some] at refers
        rw [refers]
        rfl
    | none =>
        exfalso
        rcases objectType_merged distinct (pure_eq_ok.mp ran) refers with told | ⟨missing, _⟩
        · rw [Entries.orNull, Entries.getOr, told, Option.getD_some] at looked
          exact find?_ne_none named present looked
        · rw [Entries.has, missing] at has
          cases has
  · rw [if_neg given] at ran ⊢
    rcases objectType_merged distinct (pure_eq_ok.mp ran) refers with told | ⟨_, inner, known, held, told⟩
    · rw [Entries.orNull, Entries.getOr, told] at given
      exact absurd named given
    · have shared : Entries.orNull name draft.attributes = .object inner known := by
        rw [Entries.orNull, Entries.getOr, held, Option.getD_some]
      have type : Entries.orNull "object_type" known = .text key := by
        rw [Entries.orNull, Entries.getOr, told, Option.getD_some]
      have nonempty : (Value.object inner known).truthy = true := by
        cases known with
        | nil => cases told
        | cons head rest => rfl
      rw [shared, nonempty, if_pos rfl]
      change Except.ok (Entries.orNull "object_type" known) = _
      rw [type]

end EventSchema.Draft
