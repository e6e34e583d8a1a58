import EventSchema.Proofs.Contribution.Clear

/-!
Dictionaries with an empty one merged in.

Merging a dictionary that declares nothing writes the two sections of the schema's dictionary out and
changes nothing in them. Whatever is merged afterwards comes to the same as without it, since neither
the sections nor the marks of the dictionary have changed.
-/

set_option autoImplicit false

namespace EventSchema

open Value

variable {scope : Text}

/-! ### Marks -/

def Value.Single (value : Value) : Prop := ∀ mark fields, value = .object mark fields → mark = none

theorem Value.boundFields_put {key : Text} {value : Value} {fields : Fields}
    (same : bound value = bound (Entries.orEmpty key fields)) :
    boundFields (Entries.put key value fields) = boundFields fields := by
  unfold Entries.orEmpty Entries.getOr at same
  induction fields with
  | nil =>
      rw [Entries.get?_nil, Option.getD_none, record, bound, boundFields] at same
      simp only [Entries.put, boundFields, same, Nat.max_self]
  | cons head rest ih =>
      obtain ⟨known, old⟩ := head
      rw [Entries.get?_cons] at same
      rw [Entries.put]
      by_cases here : known = key
      · rw [if_pos here, Option.getD_some] at same
        rw [if_pos here, boundFields, boundFields, same]
      · rw [if_neg here] at same
        rw [if_neg here, boundFields, boundFields, ih same]

namespace Contribution

variable {c : Contribution} {e : Extension} {dictionary : Fields}

def settled (dictionary : Fields) : Fields :=
  let types := (Entries.orEmpty "types" dictionary).inner
  Entries.put "types" (.record (Entries.put "attributes" (Entries.orEmpty "attributes" types) types))
    (Entries.put "attributes" (Entries.orEmpty "attributes" dictionary) dictionary)

theorem attributes_settled (dictionary : Fields) :
    Entries.orEmpty "attributes" (settled dictionary) = Entries.orEmpty "attributes" dictionary := by
  rw [settled, Entries.orEmpty_put_of_ne (by decide), Entries.orEmpty_put_self]

theorem types_settled (dictionary : Fields) :
    Entries.orEmpty "types" (settled dictionary) = .record (Entries.put "attributes"
      (Entries.orEmpty "attributes" (Entries.orEmpty "types" dictionary).inner)
      (Entries.orEmpty "types" dictionary).inner) := by
  rw [settled, Entries.orEmpty_put_self]

private theorem bound_settled (single : (Entries.orEmpty "types" dictionary).Single) {types : Fields}
    (opened : (Entries.orEmpty "types" dictionary).asFields = .ok types) :
    boundFields (settled dictionary) = boundFields dictionary := by
  obtain ⟨mark, shape⟩ := inner_of_asFields opened
  have plain := single mark types shape
  subst plain
  rw [settled, shape, Value.inner, boundFields_put, boundFields_put rfl]
  rw [Entries.orEmpty_put_of_ne (by decide), shape, record, bound, bound, boundFields_put rfl]

private theorem put_settled (attributes types : Value) (dictionary : Fields) :
    Entries.put "types" types (Entries.put "attributes" attributes (settled dictionary)) =
      Entries.put "types" types (Entries.put "attributes" attributes dictionary) := by
  have present : Entries.has "attributes" (Entries.put "attributes"
      (Entries.orEmpty "attributes" dictionary) dictionary) = true := by
    rw [Entries.has, Entries.get?_put_self]
    rfl
  rw [settled, Entries.put_put_of_has (by decide) present, Entries.put_put, Entries.put_put]

theorem settled_settled (dictionary : Fields) : settled (settled dictionary) = settled dictionary := by
  have types := types_settled dictionary
  have inside : (Entries.orEmpty "types" (settled dictionary)).inner = Entries.put "attributes"
      (Entries.orEmpty "attributes" (Entries.orEmpty "types" dictionary).inner)
      (Entries.orEmpty "types" dictionary).inner := by rw [types]; rfl
  calc settled (settled dictionary)
    _ = Entries.put "types" (Entries.orEmpty "types" (settled dictionary)) (Entries.put "attributes"
          (Entries.orEmpty "attributes" dictionary) (settled dictionary)) := by
        conv_lhs => rw [settled]
        rw [attributes_settled, inside, Entries.orEmpty_put_self, Entries.put_put, types]
    _ = settled dictionary := by rw [put_settled, types, settled]

/-- A dictionary that declares nothing only writes the sections out. -/
theorem extendDictionary_of_empty {extended : Fields} (empty : c.dictionary = emptyDictionary)
    (ran : (c.extendDictionary dictionary).Yields extended) :
    extended = settled dictionary ∧
      ∃ types, (Entries.orEmpty "types" dictionary).asFields = .ok types := by
  obtain ⟨new, attributes, types, newTypes, newTypeAttributes, typeAttributes, openedNew, merged,
    opened, openedTypes, openedInner, folded, shape⟩ := extendDictionary_ok ran
  rw [empty] at openedNew openedTypes
  cases openedNew
  cases openedTypes
  cases openedInner
  cases folded
  rw [shiftFields, mergeAttributes] at merged
  obtain ⟨mark, typesAre⟩ := inner_of_asFields opened
  refine ⟨?_, types, opened⟩
  rw [shape, settled, typesAre, Value.inner, Act.yields_pure.mp merged]

private theorem agree_contributed (name : Text) (new existing : Value) :
    Act.Agree (contributed e name new existing) (contributed e name new existing) := by
  intro first second one two
  rcases contributed_ok one with ⟨bare, rfl⟩ | ⟨filled, _, mark, fields, shape, _, rfl⟩
  · rcases contributed_ok two with ⟨_, rfl⟩ | ⟨filled, _⟩
    · rfl
    · rw [bare] at filled
      cases filled
  · rcases contributed_ok two with ⟨bare, _⟩ | ⟨_, _, other, others, same, _, rfl⟩
    · rw [bare] at filled
      cases filled
    · rw [shape, Value.object.injEq] at same
      rw [same.2]

private theorem agree_mergeAttributes (base : Value) (new : Fields) :
    Act.Agree (mergeAttributes e base new) (mergeAttributes e base new) := by
  induction base, new using mergeAttributes.induct with
  | case1 base =>
      rw [mergeAttributes]
      exact Act.agree_pure base
  | case2 base name value later ih =>
      rw [mergeAttributes]
      refine (Act.agree_lift rfl).bind fun attributes _ _ => ?_
      exact (agree_contributed name value _).bind fun given _ _ => ih attributes given

theorem agree_extendDictionary (c : Contribution) (dictionary : Fields) :
    Act.Agree (c.extendDictionary dictionary) (c.extendDictionary dictionary) := by
  intro first second one two
  obtain ⟨new, attributes, types, newTypes, newInner, typeAttributes, openedNew, merged, opened,
    openedTypes, openedInner, folded, rfl⟩ := extendDictionary_ok one
  obtain ⟨new', attributes', types', newTypes', newInner', typeAttributes', openedNew', merged', opened',
    openedTypes', openedInner', folded', rfl⟩ := extendDictionary_ok two
  cases openedNew.symm.trans openedNew'
  cases opened.symm.trans opened'
  cases openedTypes.symm.trans openedTypes'
  cases openedInner.symm.trans openedInner'
  cases folded.symm.trans folded'
  rw [agree_mergeAttributes _ _ _ _ merged merged']

/-- What is merged into a dictionary comes to the same once its sections are written out. -/
theorem extendDictionary_settled (single : (Entries.orEmpty "types" dictionary).Single) {first second : Fields}
    (one : (c.extendDictionary (settled dictionary)).Yields first)
    (two : (c.extendDictionary dictionary).Yields second) : first = second := by
  obtain ⟨new, attributes, types, newTypes, newInner, typeAttributes, openedNew, merged, opened,
    openedTypes, openedInner, folded, rfl⟩ := extendDictionary_ok one
  obtain ⟨new', attributes', types', newTypes', newInner', typeAttributes', openedNew', merged', opened',
    openedTypes', openedInner', folded', rfl⟩ := extendDictionary_ok two
  cases openedNew.symm.trans openedNew'
  cases openedTypes.symm.trans openedTypes'
  cases openedInner.symm.trans openedInner'
  obtain ⟨mark, typesAre⟩ := inner_of_asFields opened'
  rw [attributes_settled, bound_settled single opened'] at merged
  rw [types_settled, typesAre, Value.inner] at opened
  cases opened
  rw [Entries.orEmpty_put_self, folded', Except.ok.injEq] at folded
  subst folded
  rw [agree_mergeAttributes _ _ _ _ merged merged', put_settled, Entries.put_put]

/-! ### Nothing in a dictionary leads into the scope -/

private theorem clear_contributed {name : Text} {new existing given : Value} (field : ClearField scope (name, new))
    (clear : Clear scope new) (ran : (contributed e name new existing).Yields given) :
    ClearField scope (name, given) ∧ Clear scope given := by
  rcases contributed_ok ran with ⟨_, rfl⟩ | ⟨_, _, mark, fields, rfl, _, rfl⟩
  · exact ⟨field, clear⟩
  · exact ⟨clearField_of_object rfl, clear_record.mpr (((clear_object.mp clear).erase _).erase _)⟩

private theorem clear_mergeAttributes {base merged : Value} {new : Fields} (clearBase : Clear scope base)
    (clear : ClearFields scope new) (ran : (mergeAttributes e base new).Yields merged) :
    Clear scope merged := by
  induction base, new using mergeAttributes.induct with
  | case1 base =>
      rw [mergeAttributes] at ran
      exact Act.yields_pure.mp ran ▸ clearBase
  | case2 base name value later ih =>
      obtain ⟨field, inside, others⟩ := clearFields_cons.mp clear
      rw [mergeAttributes] at ran
      obtain ⟨attributes, opened, ran⟩ := Act.yields_bind ran
      obtain ⟨given, contributes, ran⟩ := Act.yields_bind ran
      obtain ⟨givenField, givenClear⟩ := clear_contributed field inside contributes
      obtain ⟨whole, rest⟩ := ClearFields.overlayOne (clearBase.asFields (Act.yields_lift.mp opened))
        others givenField givenClear
      exact ih attributes given (clear_record.mpr whole) rest ran

theorem clear_extendDictionary {extended : Fields} (clear : ClearFields scope dictionary)
    (given : ClearFields scope c.dictionary) (ran : (c.extendDictionary dictionary).Yields extended) :
    ClearFields scope extended := by
  obtain ⟨new, attributes, types, newTypes, newTypeAttributes, typeAttributes, openedNew, merged,
    opened, openedTypes, openedInner, folded, rfl⟩ := extendDictionary_ok ran
  have clearNew := ClearFields.shift (boundFields dictionary) new
    ((given.orEmpty_clear _).asFields openedNew)
  have clearNewTypes := (((given.orEmpty_clear _).asFields openedTypes).orEmpty_clear _).asFields
    openedInner
  have clearTypes := (clear.orEmpty_clear _).asFields opened
  have attributesClear := clear_mergeAttributes (clear.orEmpty_clear _) clearNew merged
  have typesClear : Clear scope typeAttributes := by
    refine foldlM_invariant (motive := Clear scope) folded (clearTypes.orEmpty_clear _) ?_
    intro state entry next member held step
    obtain ⟨field, value⟩ := clearFields_iff.mp clearNewTypes entry member
    obtain ⟨mark, known, rfl, _, rfl⟩ := addType_ok step
    exact clear_object.mpr ((clear_object.mp held).put field value)
  exact (clear.put (clearField_of_key (by decide) _) attributesClear).put_record _
    (clearTypes.put (clearField_of_key (by decide) _) typesClear)

end Contribution

end EventSchema
