import EventSchema.Proofs.Draft.Attributes
import EventSchema.Proofs.Draft.Datetime

/-!
Attributes and their copies.

A copy shares nothing, so it has no marks, and is otherwise the same. The passes over a draft ask of an
attribute nothing that could tell the two apart: a copy is spelled, looked up and finished like the attribute.
-/

set_option autoImplicit false

namespace EventSchema

namespace Value

mutual
private theorem spelled_unshared : (value : Value) → spelled value.unshared = spelled value
  | .object mark fields => by
      rw [unshared, spelled, spelled, spelledFields_unsharedFields fields]
  | .null | .bool _ | .int _ | .float _ | .text _ | .array _ => by
      rw [unshared]
      simp
private theorem spelledFields_unsharedFields : (fields : List (Text × Value)) →
    spelledFields (unsharedFields fields) = spelledFields fields
  | [] => by rw [unsharedFields]
  | (key, value) :: rest => by
      rw [unsharedFields, spelledFields, spelledFields, spelled_unshared value,
        spelledFields_unsharedFields rest]
end

private theorem shown_unshared (value : Value) : value.unshared.shown = value.shown := by
  cases value with
  | object mark fields =>
      have copied := spelled_unshared (.object mark fields)
      rw [unshared] at copied ⊢
      exact copied
  | null | bool _ | int _ | float _ | text _ | array _ => rw [unshared_of_leaf rfl]

/-! ### Merging copies -/

mutual
private theorem unshared_merge : (dest source : Value) → (dest.merge source).unshared =
    dest.unshared.merge source.unshared
  | .object own fields, .object mark source => by
      rw [merge_object, unshared, unshared, unshared, merge_object, unsharedFields_mergeFields]
  | .null, .object _ _ | .bool _, .object _ _ | .int _, .object _ _ | .float _, .object _ _
  | .text _, .object _ _ | .array _, .object _ _ => by
      rw [merge_apart (Or.inl rfl), merge_apart (Or.inl (by rw [unshared_of_leaf rfl]; rfl))]
  | dest, .null | dest, .bool _ | dest, .int _ | dest, .float _ | dest, .text _ | dest, .array _ => by
      rw [merge_apart (Or.inr rfl), merge_apart (Or.inr (by rw [unshared_of_leaf rfl]; rfl))]
private theorem unsharedFields_mergeFields : (dest source : List (Text × Value)) →
    unsharedFields (mergeFields dest source) = mergeFields (unsharedFields dest) (unsharedFields source)
  | dest, [] => by rw [mergeFields, unsharedFields, mergeFields]
  | dest, (key, value) :: rest => by
      rw [mergeFields, unsharedFields, mergeFields, unsharedFields_mergeFields _ rest, get?_unsharedFields]
      cases Entries.get? key dest with
      | none =>
          dsimp only [Option.map_none]
          rw [put_unsharedFields]
      | some old =>
          dsimp only [Option.map_some]
          rw [← unshared_merge old value, put_unsharedFields]
end

private theorem unshared_mergeInto (dest source : Value) :
    (dest.mergeInto source).unshared = dest.unshared.mergeInto source.unshared := by
  cases dest with
  | object own fields =>
      cases source with
      | object mark given =>
          have merged := unshared_merge (.object own fields) (.object mark given)
          rw [unshared, unshared] at merged ⊢
          exact merged
      | null | bool _ | int _ | float _ | text _ | array _ => rfl
  | null | bool _ | int _ | float _ | text _ | array _ => rfl

end Value

/-! ### Names -/

namespace Scope

theorem find?_unshared {α : Type} (entries : Entries α) (name owner : Value) :
    find? entries name (some owner.unshared) = find? entries name (some owner) := by
  unfold find? findBy
  dsimp only
  rw [Value.truthy_unshared, Value.shown_unshared]

private theorem find?_unshared_name {α : Type} (entries : Entries α) (name : Value) (owner : Option Value) :
    find? entries name.unshared owner = find? entries name owner := by
  cases name with
  | object mark fields =>
      have part : (Value.text "/").member (Value.object mark fields).unshared =
          (Value.text "/").member (Value.object mark fields) := by
        rw [Value.unshared, Value.member, Value.member, Entries.has, Value.get?_unsharedFields, Option.isSome_map,
          Entries.has]
      have impossible : (Value.object mark fields).unshared.isEntry entries =
          (Value.object mark fields).isEntry entries := by
        rw [Value.unshared]
        rfl
      -- neither is an entry itself, so what is found is under a key of the scope
      have nothing {own : Value} : (do
          if ← (Value.object mark fields).isEntry entries then return some own else return none :
            Except Fault (Option Value)) = misused .operand := rfl
      unfold find? findBy
      dsimp only
      rw [Value.truthy_unshared, Value.shown_unshared, part, impossible, nothing, nothing]
  | null | bool _ | int _ | float _ | text _ | array _ => rw [Value.unshared_of_leaf rfl]

end Scope

namespace Draft

def Copies (field copied : Fields) (key : Text) : Prop :=
  Entries.get? key copied = (Entries.get? key field).map Value.unshared

theorem Copies.orNull {field copied : Fields} {key : Text} (copies : Copies field copied key) :
    Entries.orNull key copied = (Entries.orNull key field).unshared := by
  unfold Entries.orNull Entries.getOr
  rw [copies]
  cases Entries.get? key field with
  | none => rfl
  | some value => rfl

theorem extensionOf_copied {field copied item : Fields} {scope : Value} (source : Copies field copied "_source")
    (extension : Copies field copied "extension") (ran : extensionOf field item = .ok scope) :
    extensionOf copied item = .ok scope ∨ extensionOf copied item = .ok scope.unshared := by
  unfold extensionOf at ran ⊢
  dsimp only at ran ⊢
  rw [source.orNull, Value.truthy_unshared]
  split at ran
  · rename_i given
    rw [if_pos given]
    cases told : Entries.orNull "_source" field with
    | object mark fields =>
        rw [told] at ran
        have same : Entries.has "/" (Value.unsharedFields fields) = Entries.has "/" fields := by
          rw [Entries.has, Value.get?_unsharedFields, Option.isSome_map, Entries.has]
        rw [Value.member, ok_bind] at ran
        rw [Value.unshared, Value.member, ok_bind, same]
        split at ran
        · cases ran
        · rename_i absent
          rw [if_neg absent]
          exact Or.inl ran
    | null | bool _ | int _ | float _ | text _ | array _ =>
        rw [told] at ran
        rw [Value.unshared_of_leaf rfl]
        exact Or.inl ran
  · rename_i missing
    rw [if_neg missing, extension]
    unfold Value.orElse at ran ⊢
    cases known : Entries.get? "extension" field with
    | none =>
        rw [known] at ran
        exact Or.inl ran
    | some owner =>
        rw [known] at ran
        dsimp only at ran
        rw [Option.map_some]
        dsimp only
        rw [Value.truthy_unshared]
        split at ran
        · rename_i given
          rw [if_pos given, ← pure_eq_ok.mp ran]
          exact Or.inr rfl
        · rename_i unnamed
          rw [if_neg unnamed]
          exact Or.inl ran

/-! ### Finishing copies -/

theorem orOptional_unshared (value : Value) : orOptional value.unshared = (orOptional value).unshared := by
  cases value with
  | object mark field =>
      have missing : (Entries.orNull "requirement" (Value.unsharedFields field)).isNull =
          (Entries.orNull "requirement" field).isNull := by
        rw [Copies.orNull (Value.get?_unsharedFields _ _), Value.isNull_unshared]
      rw [Value.unshared, orOptional, orOptional, missing]
      split
      · rw [Value.record, Value.record, Value.unshared]
        exact congrArg (Value.object none) (Value.put_unsharedFields "requirement" (.text "optional") field)
      · rw [Value.unshared]
  | null | bool _ | int _ | float _ | text _ | array _ => rfl

private theorem refer_unshared {objects : Entries Fields} {key : Value} {field result : Fields}
    (ran : refer objects key field = .ok result) :
    ∃ copied, refer objects key (Value.unsharedFields field) = .ok copied ∧
      Value.unsharedFields copied = Value.unsharedFields result := by
  obtain ⟨object, held, same⟩ := bind_eq_ok.mp ran
  refine ⟨_, bind_eq_ok.mpr ⟨object, held, rfl⟩, ?_⟩
  have again : Value.unsharedFields (Value.unsharedFields field) = Value.unsharedFields field :=
    Value.plainFields_unsharedFields field
  rw [← pure_eq_ok.mp same]
  simp only [← Value.put_unsharedFields, again]

theorem finishAttribute_unshared {draft : Draft} {item : Fields} {name : Text} {value result : Value}
    (ran : draft.finishAttribute item name value = .ok result) :
    ∃ copied, draft.finishAttribute item name value.unshared = .ok copied ∧ copied.unshared = result.unshared := by
  unfold finishAttribute at ran ⊢
  extract_lets merged at ran
  extract_lets copy
  have copies : copy = merged.unshared := by
    unfold copy merged
    cases Entries.get? name draft.attributes with
    | none => rfl
    | some shared =>
        dsimp only
        rw [Value.unshared_mergeInto, Value.plain_unshared]
  have again : merged.unshared.unshared = merged.unshared := Value.plain_unshared merged
  clear_value copy merged
  subst copies
  obtain ⟨field, opened, finish⟩ := bind_eq_ok.mp ran
  clear ran
  obtain ⟨mark, rfl⟩ := Value.inner_of_asFields opened
  have copied (key : Text) : Copies field (Value.unsharedFields field) key := Value.get?_unsharedFields key field
  rw [Value.unshared, Value.asFields, ok_bind]
  dsimp only at finish ⊢
  rw [(copied "object_type").orNull, Value.truthy_unshared]
  split at finish
  · rename_i given
    obtain ⟨scope, told, finish⟩ := bind_eq_ok.mp finish
    obtain ⟨found, meant, finish⟩ := bind_eq_ok.mp finish
    have owned : ∃ owner, extensionOf (Value.unsharedFields field) item = .ok owner ∧
        Scope.find? draft.objects (Entries.orNull "object_type" field).unshared (some owner) = .ok found := by
      rcases extensionOf_copied (copied "_source") (copied "extension") told with same | other
      · exact ⟨scope, same, (Scope.find?_unshared_name ..).trans meant⟩
      · exact ⟨scope.unshared, other,
          (Scope.find?_unshared_name ..).trans ((Scope.find?_unshared ..).trans meant)⟩
    obtain ⟨owner, asked, looked⟩ := owned
    rw [if_pos given, asked, ok_bind, looked, ok_bind]
    cases found with
    | none =>
        cases pure_eq_ok.mp finish
        exact ⟨_, rfl, again⟩
    | some key =>
        obtain ⟨fields, opens, rest⟩ := bind_eq_ok.mp finish
        obtain ⟨written, refers, last⟩ := bind_eq_ok.mp rest
        obtain ⟨own, rfl⟩ := Value.inner_of_asFields opens
        obtain ⟨result', refers', same⟩ := refer_unshared refers
        cases pure_eq_ok.mp last
        refine ⟨.record result', ?_, ?_⟩
        · rw [Value.unshared]
          exact bind_eq_ok.mpr ⟨_, rfl, bind_eq_ok.mpr ⟨result', refers', rfl⟩⟩
        · rw [Value.record, Value.record, Value.unshared, Value.unshared, same]
  · rename_i missing
    rw [if_neg missing]
    cases pure_eq_ok.mp finish
    exact ⟨_, rfl, again⟩

end Draft

end EventSchema
