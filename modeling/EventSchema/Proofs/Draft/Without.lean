import Mathlib.Data.List.TakeWhile
import EventSchema.Draft.Profiles
import EventSchema.Proofs.Draft.Attributes
import EventSchema.Proofs.Value.Clear

/-!
A draft with the items of a scope and without them.

Items outside a scope that refer to nothing in it find in both drafts what they refer to, and it is
the same: the extension that an attribute is looked up for, the object that it means, and what it says
of that object.
-/

set_option autoImplicit false

namespace EventSchema

namespace Text

theorem contains_slash (text : Text) : text.contains "/" = text.hasSlash := by
  have single (codes : List Nat) : occurs [slash] codes = codes.contains slash := by
    induction codes with
    | nil => rfl
    | cons head rest ih =>
        rw [occurs, ih, List.contains_cons, leads, leads, Bool.and_true]
  rw [contains, codes_slash, single]
  rfl

private theorem exists_within {text : Text} (slashed : text.hasSlash = true) :
    ∃ name, text = Scope.within text.beforeSlash name := by
  obtain ⟨codes⟩ := text
  have split := List.takeWhile_append_dropWhile (p := (· != slash)) (l := codes)
  cases rest : codes.dropWhile (· != slash) with
  | nil =>
      have outside := List.dropWhile_eq_nil_iff.mp rest slash (hasSlash_iff.mp slashed)
      simp at outside
  | cons head later =>
      have first : head = slash := by
        have stopped := List.head_dropWhile_not (· != slash) (l := codes) (by rw [rest]; simp)
        simpa [rest] using stopped
      rw [first] at rest
      refine ⟨⟨later⟩, congrArg Text.mk ?_⟩
      change codes = codes.takeWhile (· != slash) ++ ("/" : Text).codes ++ later
      rw [codes_slash, List.append_assoc, List.singleton_append, ← rest, split]

end Text

namespace Draft

open Value

structure Without (scope : Text) (full part : Draft) : Prop where
  categories : part.categories = full.categories.outside scope
  profiles : part.profiles = full.profiles.outside scope
  attributes : part.attributes = full.attributes
  types : part.types = full.types
  classes : part.classes = Entries.outside scope full.classes
  objects : part.objects = Entries.outside scope full.objects
  observables : part.observables = full.observables
  allClasses : part.allClasses = Entries.outside scope full.allClasses
  allObjects : part.allObjects = Entries.outside scope full.allObjects

variable {scope : Text} {full part : Draft}

def ClearAttribute (scope : Text) (value : Value) : Prop :=
  ∀ mark field, value = .object mark field → ClearSurface scope field

def ClearAttributes (scope : Text) (attributes : Fields) : Prop :=
  ∀ entry ∈ attributes, ClearAttribute scope entry.2

structure Guarded (scope : Text) (item : Fields) : Prop where
  owner : ∀ given, Entries.get? "extension" item = some given → Scope.OwnerOutside scope given
  attributes : ClearAttributes scope (Entries.attributes item)

theorem clearAttributes_of_clear {attributes : Fields} (clear : ClearFields scope attributes) :
    ClearAttributes scope attributes := by
  intro entry member mark field shape
  have inside := (clearFields_iff.mp clear entry member).2
  rw [shape] at inside
  exact (clear_object.mp inside).surface

theorem clearAttribute_record {field : Fields} (clear : ClearSurface scope field) :
    ClearAttribute scope (.record field) := by
  intro mark own shape
  injection shape with _ same
  exact same ▸ clear

theorem ClearAttribute.asFields {value : Value} (clear : ClearAttribute scope value) {field : Fields}
    (opened : value.asFields = .ok field) : ClearSurface scope field := by
  cases value with
  | object mark own => exact Except.ok.inj opened ▸ clear mark own rfl
  | null | bool _ | int _ | float _ | text _ | array _ => cases opened

theorem ClearAttribute.unshared {value : Value} (clear : ClearAttribute scope value) :
    ClearAttribute scope value.unshared := by
  cases value with
  | object mark field =>
      rw [Value.unshared]
      exact clearAttribute_record (clear mark field rfl).unshared
  | null | bool _ | int _ | float _ | text _ | array _ =>
      rw [Value.unshared]
      · exact clear
      · simp

theorem ClearAttributes.put {attributes : Fields} (clear : ClearAttributes scope attributes)
    (name : Text) {value : Value} (own : ClearAttribute scope value) :
    ClearAttributes scope (Entries.put name value attributes) := by
  intro entry member
  rcases Entries.mem_of_mem_put member with written | before
  · exact written ▸ own
  · exact clear entry before

theorem ClearAttributes.putNew {attributes : Fields} (clear : ClearAttributes scope attributes)
    (name : Text) {value : Value} (own : ClearAttribute scope value) :
    ClearAttributes scope (Entries.putNew name value attributes) := by
  unfold Entries.putNew
  split
  · exact clear
  · exact clear.put name own

theorem guarded_of_clear (proper : Scope.Proper scope) {item : Fields}
    (clear : ClearFields scope item) : Guarded scope item where
  owner _ found := clear.surface.owner proper found
  attributes := clearAttributes_of_clear clear.attributes

/-! ### What an attribute means -/

theorem extensionOf_outside (proper : Scope.Proper scope) {field item : Fields}
    (clear : ClearSurface scope field)
    (owner : ∀ given, Entries.get? "extension" item = some given → Scope.OwnerOutside scope given)
    {given : Value} (ran : extensionOf field item = .ok given) : Scope.OwnerOutside scope given := by
  have nobody : Scope.OwnerOutside scope .null := fun impossible => by cases impossible
  unfold extensionOf at ran
  dsimp only at ran
  split at ran
  · obtain ⟨slashed, asked, ran⟩ := bind_eq_ok.mp ran
    cases slashed with
    | false => exact pure_eq_ok.mp ran ▸ nobody
    | true =>
        rw [if_pos rfl] at ran
        split at ran
        · rename_i text source
          rw [← pure_eq_ok.mp ran]
          intro _
          rw [source] at asked
          have slashed : text.hasSlash = true := by
            rw [← Text.contains_slash]
            exact Except.ok.inj asked
          obtain ⟨name, whole⟩ := Text.exists_within slashed
          have named : Scope.NameOutside scope (Entries.orNull "_source" field) :=
            clear.name (by decide)
          have free := named text source
          rw [whole, Scope.owns_within proper.plain] at free
          exact free
        · cases ran
  · rw [← pure_eq_ok.mp ran]
    have fallback : Scope.OwnerOutside scope (Entries.orNull "extension" item) := by
      unfold Entries.orNull Entries.getOr
      cases found : Entries.get? "extension" item with
      | none => exact nobody
      | some value => exact owner value found
    unfold orElse
    split
    · rename_i value found
      split
      · exact clear.owner proper found
      · exact fallback
    · exact fallback

theorem refer_outside {objects : Entries Fields} {key : Value} (named : Scope.NameOutside scope key)
    (field : Fields) : refer (Entries.outside scope objects) key field = refer objects key field := by
  unfold refer
  rw [Scope.lookup?_outside named]

theorem objectTypeOf_outside (proper : Scope.Proper scope)
    (attributes : part.attributes = full.attributes)
    (objects : part.objects = Entries.outside scope full.objects) {entry : Text × Value}
    (clear : ClearAttribute scope entry.2) :
    objectTypeOf part entry = objectTypeOf full entry := by
  unfold objectTypeOf
  cases shape : entry.2 with
  | object mark field =>
      have surface := clear mark field shape
      simp only [asFields, ok_bind]
      rw [attributes]
      split
      · cases owned : extensionOf field [] with
        | error fault => rfl
        | ok owner =>
            have outside := extensionOf_outside proper surface (by intro _ none?; cases none?) owned
            have named : Scope.NameOutside scope (Entries.orNull "object_type" field) :=
              surface.name (by decide)
            simp only [ok_bind]
            rw [objects, Scope.find?_outside proper.plain full.objects named
              (fun given same => Option.some.inj same ▸ outside)]
      · rfl
  | null | bool _ | int _ | float _ | text _ | array _ => rfl

theorem nameOutside_of_objectTypeOf (proper : Scope.Proper scope)
    (dictionary : ClearAttributes scope part.attributes) {entry : Text × Value}
    (clear : ClearAttribute scope entry.2) {type : Value}
    (ran : objectTypeOf part entry = .ok type) : Scope.NameOutside scope type := by
  have nothing : Scope.NameOutside scope .null := fun text impossible => by cases impossible
  unfold objectTypeOf at ran
  obtain ⟨field, opened, ran⟩ := bind_eq_ok.mp ran
  have surface : ClearSurface scope field := by
    cases shape : entry.2 with
    | object mark own =>
        rw [shape] at opened
        exact Except.ok.inj opened ▸ clear mark own shape
    | null | bool _ | int _ | float _ | text _ | array _ =>
        rw [shape] at opened
        cases opened
  dsimp only at ran
  split at ran
  · obtain ⟨owner, owned, ran⟩ := bind_eq_ok.mp ran
    obtain ⟨found, looked, ran⟩ := bind_eq_ok.mp ran
    rw [← pure_eq_ok.mp ran]
    cases found with
    | none => exact nothing
    | some key =>
        have outside := extensionOf_outside proper surface (by intro _ none?; cases none?) owned
        exact Scope.nameOutside_of_findBy proper.plain (surface.name (by decide))
          (fun given same => Option.some.inj same ▸ outside) looked
  · split at ran
    · obtain ⟨shared, read, ran⟩ := bind_eq_ok.mp ran
      rw [← pure_eq_ok.mp ran]
      unfold Entries.orNull Entries.getOr at read
      cases found : Entries.get? entry.1 part.attributes with
      | none =>
          rw [found] at read
          cases read
      | some value =>
          rw [found, Option.getD_some] at read
          cases value with
          | object mark own =>
              rw [← Except.ok.inj read]
              exact (dictionary _ (Entries.mem_of_get? found) mark own rfl).name (by decide)
          | null | bool _ | int _ | float _ | text _ | array _ => cases read
    · exact pure_eq_ok.mp ran ▸ nothing

end Draft

end EventSchema
