import EventSchema.Contribution.Dictionary
import EventSchema.Proofs.Fragment
import EventSchema.Proofs.Value.Same

/-!
Dictionaries extended one after another.

Merging the dictionary of an extension is told name by name: an attribute that is not there is added,
one of the base schema is refined without its type, its object type or its owner being touched, and
anything else stops the merge. What one merge does to a name decides what any sequence of merges comes
to: the base attributes and types stay what they are, and everything else comes from the one extension
that defines it.

All of this is about documents that spell each of their objects in one place. Objects that annotations
put into several attributes are changed in all of them when one is refined.
-/

set_option autoImplicit false

namespace EventSchema

open Value

namespace Contribution

def declaredTypes (dictionary : Fields) : Fields :=
  Entries.attributes (Entries.orEmpty "types" dictionary).inner

/-! ### Guards -/

/-- What a contributed attribute gives to one of the base schema: everything but its owner. -/
def unowned (fields : Fields) : Fields := Entries.erase "extension_id" (Entries.erase extensionKey fields)

theorem get?_unowned {field : Text} (fields : Fields) : Entries.get? field (unowned fields) =
    if field = "extension_id" ∨ field = extensionKey then none else Entries.get? field fields := by
  rw [unowned, Entries.get?_erase, Entries.get?_erase]
  by_cases number : field = "extension_id"
  · rw [if_pos number, if_pos (Or.inl number)]
  · rw [if_neg number]
    by_cases name : field = extensionKey
    · rw [if_pos name, if_pos (Or.inr name)]
    · rw [if_neg name, if_neg (not_or.mpr ⟨number, name⟩)]

private theorem keeps_ok {key : Text} {fault : Value → Value → DefinitionFault} {given old : Fields}
    {mark : Option Nat} (ran : keeps key fault given (.object mark old) = .ok ()) :
    ∀ value, Entries.get? key given = some value →
      value.equals (Entries.orNull key old) = true := by
  intro value found
  unfold keeps at ran
  rw [found] at ran
  obtain ⟨before, known, ran⟩ := bind_eq_ok.mp ran
  obtain ⟨fields, opened, same⟩ := bind_eq_ok.mp known
  cases opened
  have held : Value.ofOption before = Entries.orNull key old := by
    rw [← pure_eq_ok.mp same, Entries.orNull, Entries.getOr]
    cases Entries.get? key old <;> rfl
  dsimp only at ran
  split at ran
  · rename_i equal
    exact held ▸ equal
  · cases ran

/-- What the guards let through: a refinement of an object without an owner that keeps what the type
and the object type are and gives a requirement that binds at least as much, or null. -/
theorem refinable_guards {context : Text} {given : Fields} {base : Value}
    (ran : refinable context given base = .ok ()) :
    ∃ mark old, base = .object mark old ∧ Entries.get? extensionKey old = none ∧
      keeps "type" (.typeChange context) given base = .ok () ∧
      keeps "object_type" (.objectTypeChange context) given base = .ok () ∧
      ((Entries.orNull "requirement" given).isNull = true ∨ ∃ rank before,
        requirementRank (Entries.orNull "requirement" given) = .ok rank ∧
          requirementRank (Entries.orNull "requirement" old) = .ok before ∧ before ≤ rank) := by
  unfold refinable at ran
  obtain ⟨owned, asked, ran⟩ := bind_eq_ok.mp ran
  extract_lets required guarded at ran
  split at ran
  · obtain ⟨_, _, ran⟩ := bind_eq_ok.mp ran
    obtain ⟨_, impossible, _⟩ := bind_eq_ok.mp ran
    cases impossible
  · rename_i free
    obtain ⟨_, type, ran⟩ := bind_eq_ok.mp ran
    obtain ⟨_, object, ran⟩ := bind_eq_ok.mp ran
    obtain ⟨found, known, rest⟩ := bind_eq_ok.mp ran
    obtain ⟨old, opened, same⟩ := bind_eq_ok.mp known
    obtain ⟨mark, rfl⟩ := inner_of_asFields opened
    have held : Value.ofOption found = Entries.orNull "requirement" old := by
      rw [← pure_eq_ok.mp same, Entries.orNull, Entries.getOr]
      cases Entries.get? "requirement" old <;> rfl
    refine ⟨mark, old, rfl, ?_, type, object, ?_⟩
    · have absent : Entries.has extensionKey old = false := by
        rw [Except.ok.inj asked]
        exact Bool.not_eq_true _ ▸ free
      rw [Entries.has, Option.isSome_eq_false_iff, Option.isNone_iff_eq_none] at absent
      exact absent
    · by_cases silent : required.isNull = true
      · exact Or.inl silent
      · rw [held, if_pos ((Bool.not_eq_true' _).mpr ((Bool.not_eq_true _).mp silent))] at rest
        obtain ⟨rank, ranked, rest⟩ := bind_eq_ok.mp rest
        obtain ⟨before, rankedBefore, rest⟩ := bind_eq_ok.mp rest
        split at rest
        · cases rest
        · rename_i safe
          exact Or.inr ⟨rank, before, ranked, rankedBefore, not_lt.mp safe⟩

/-- Only an object without an owner passes the guards, and they hold its type and object type. -/
theorem refinable_ok {context : Text} {given : Fields} {base : Value}
    (ran : refinable context given base = .ok ()) :
    ∃ mark old, base = .object mark old ∧ Entries.get? extensionKey old = none ∧
      ∀ key : Text, key = "type" ∨ key = "object_type" → ∀ value, Entries.get? key given = some value →
        value.equals (Entries.orNull key old) = true := by
  obtain ⟨mark, old, rfl, free, type, object, _⟩ := refinable_guards ran
  refine ⟨mark, old, rfl, free, ?_⟩
  rintro key (rfl | rfl)
  · exact keeps_ok type
  · exact keeps_ok object

/-! ### One merge -/

inductive Merged : Option Value → Option Value → Option Value → Prop
  /-- The extension does not define it. -/
  | untouched (old : Option Value) : Merged none old old
  /-- It is new. -/
  | added (new : Value) : Merged (some new) none (some new)
  /-- It refines an attribute that nobody owns. -/
  | refined {context : Text} {own mark : Option Nat} {fields old : Fields} (filled : old ≠ [])
      (safe : refinable context fields (.object mark old) = .ok ()) :
      Merged (some (.object own fields)) (some (.object mark old))
        (some (.object mark (mergeFields old (unowned fields))))
  /-- What is there says nothing. -/
  | replaced {new old : Value} (bare : old.truthy = false) :
      Merged (some new) (some old) (some (merge old new))

theorem contributed_ok {extension : Extension} {name : Text} {new existing given : Value}
    (ran : (contributed extension name new existing).Yields given) :
    (existing.truthy = false ∧ given = new) ∨
      existing.truthy = true ∧ ∃ context mark fields, new = .object mark fields ∧
        refinable context fields existing = .ok () ∧ given = .record (unowned fields) := by
  unfold contributed at ran
  split at ran
  · rename_i bare
    exact Or.inl ⟨(Bool.not_eq_true' _).mp bare, (Act.yields_pure.mp ran).symm⟩
  · rename_i filled
    obtain ⟨fields, opened, ran⟩ := Act.yields_bind ran
    obtain ⟨_, safe, ran⟩ := Act.yields_bind ran
    obtain ⟨_, _, ran⟩ := Act.yields_bind ran
    obtain ⟨mark, same⟩ := inner_of_asFields (Act.yields_lift.mp opened)
    refine Or.inr ⟨?_, _, mark, fields, same, Act.yields_lift.mp safe, (Act.yields_pure.mp ran).symm⟩
    rw [Bool.not_eq_true', Bool.not_eq_false] at filled
    exact filled

/-- What is merged under a name comes of what is there in one of four ways. -/
theorem merged_of_contributed {extension : Extension} {name : Text} {new given : Value}
    {attributes : Fields}
    (ran : (contributed extension name new (Entries.orNull name attributes)).Yields given) :
    Merged (some new) (Entries.get? name attributes)
      (some (match Entries.get? name attributes with
        | some old => merge old given
        | none => given)) := by
  unfold Entries.orNull Entries.getOr at ran
  cases found : Entries.get? name attributes with
  | none =>
      rw [found] at ran
      rcases contributed_ok ran with ⟨_, same⟩ | ⟨impossible, _⟩
      · exact same ▸ .added new
      · cases impossible
  | some old =>
      rw [found] at ran
      rcases contributed_ok ran with ⟨bare, same⟩ | ⟨filled, context, own, fields, rfl, safe, rfl⟩
      · exact same ▸ .replaced bare
      · obtain ⟨mark, before, rfl, _⟩ := refinable_ok safe
        dsimp only
        rw [record, merge_object]
        refine .refined ?_ safe
        rintro rfl
        cases filled

private theorem written_contributed {extension : Extension} {name : Text} {new existing given : Value}
    (written : Written new) (ran : (contributed extension name new existing).Yields given) :
    Written given := by
  rcases contributed_ok ran with ⟨_, same⟩ | ⟨_, _, mark, fields, same, _, shape⟩
  · exact same ▸ written
  · rw [shape]
    rw [same, written_object] at written
    exact (written.2.erase _).erase _

/-- One attribute of an extension changes what is under its own name and nothing else. -/
theorem overlayOne_contributed {extension : Extension} {key : Text} {new given : Value}
    {attributes : Fields} (whole : Written (.record attributes)) (written : Written new)
    (ran : (contributed extension key new (Entries.orNull key attributes)).Yields given)
    (later : Fields) :
    ∃ joined, overlayOne key given attributes later = (Entries.put key joined attributes, later) ∧
      Written joined ∧ Merged (some new) (Entries.get? key attributes) (some joined) := by
  have own := written_contributed written ran
  refine ⟨_, overlayOne_of_plain whole.plainFields own.plain later, ?_, merged_of_contributed ran⟩
  cases found : Entries.get? key attributes with
  | none => exact own
  | some old => exact Written.merge old given (whole.of_get? found) own

private theorem mergeAttributes_ok {extension : Extension} {base merged : Value} {new : Fields}
    (whole : Written base) (given : Written (.record new))
    (ran : (mergeAttributes extension base new).Yields merged) :
    Written merged ∧ ∀ name,
      Merged (Entries.get? name new) (Entries.get? name base.inner) (Entries.get? name merged.inner) := by
  induction new generalizing base with
  | nil =>
      rw [mergeAttributes] at ran
      rw [← Act.yields_pure.mp ran]
      exact ⟨whole, fun name => .untouched _⟩
  | cons head later ih =>
      obtain ⟨key, value⟩ := head
      obtain ⟨valueWritten, others, fresh⟩ := written_cons.mp given
      rw [mergeAttributes] at ran
      obtain ⟨attributes, opened, rest⟩ := Act.yields_bind ran
      obtain ⟨own, contributes, rest⟩ := Act.yields_bind rest
      obtain ⟨mark, same⟩ := inner_of_asFields (Act.yields_lift.mp opened)
      rw [same] at whole ⊢
      have before := (written_object.mp whole).2
      obtain ⟨joined, overlaid, joinedWritten, here⟩ :=
        overlayOne_contributed before valueWritten contributes later
      rw [overlaid] at rest
      obtain ⟨written, each⟩ := ih (before.put joinedWritten key) others rest
      refine ⟨written, fun name => ?_⟩
      have inside := each name
      rw [record, Value.inner, Entries.get?_put] at inside
      rw [Entries.get?_cons, Value.inner]
      by_cases same : name = key
      · subst same
        rw [if_pos rfl, Entries.get?_eq_none_iff.mpr fresh] at inside
        rw [if_pos rfl]
        generalize Entries.get? name merged.inner = result at inside ⊢
        cases inside
        exact here
      · rw [if_neg same] at inside
        rw [if_neg (Ne.symm same)]
        exact inside

theorem addType_ok {extension : Extension} {base next new : Value} {name : Text}
    (ran : addType extension base name new = .ok next) :
    ∃ mark types, base = .object mark types ∧ Entries.get? name types = none ∧
      next = .object mark (Entries.put name new types) := by
  unfold addType at ran
  obtain ⟨present, asked, ran⟩ := bind_eq_ok.mp ran
  split at ran
  · obtain ⟨existing, _, ran⟩ := bind_eq_ok.mp ran
    obtain ⟨owned, _, ran⟩ := bind_eq_ok.mp ran
    split at ran
    · obtain ⟨_, _, ran⟩ := bind_eq_ok.mp ran
      obtain ⟨_, _, impossible⟩ := bind_eq_ok.mp ran
      cases impossible
    · obtain ⟨_, _, impossible⟩ := bind_eq_ok.mp ran
      cases impossible
  · rename_i absent
    cases base with
    | object mark types =>
        rw [← Except.ok.inj asked, Bool.not_eq_true, Entries.has, Option.isSome_eq_false_iff,
          Option.isNone_iff_eq_none] at absent
        exact ⟨mark, types, rfl, absent, (Except.ok.inj ran).symm⟩
    | null | bool _ | int _ | float _ | text _ | array _ => cases ran

private theorem addTypes_ok {extension : Extension} {base merged : Value} {new : Fields}
    (whole : Written base) (given : Written (.record new))
    (ran : new.foldlM (fun base entry => addType extension base entry.1 entry.2) base = .ok merged) :
    Written merged ∧ ∀ name,
      (Entries.get? name new = none →
        Entries.get? name merged.inner = Entries.get? name base.inner) ∧
      ∀ type, Entries.get? name new = some type →
        Entries.get? name base.inner = none ∧ Entries.get? name merged.inner = some type := by
  induction new generalizing base with
  | nil =>
      rw [List.foldlM_nil, pure_eq_ok] at ran
      rw [← ran]
      exact ⟨whole, fun name => ⟨fun _ => rfl, fun type impossible => by cases impossible⟩⟩
  | cons head later ih =>
      obtain ⟨key, value⟩ := head
      obtain ⟨valueWritten, others, fresh⟩ := written_cons.mp given
      rw [List.foldlM_cons] at ran
      obtain ⟨next, step, ran⟩ := bind_eq_ok.mp ran
      obtain ⟨mark, types, rfl, absent, rfl⟩ := addType_ok step
      obtain ⟨unmarked, before⟩ := written_object.mp whole
      obtain ⟨written, each⟩ :=
        ih (written_object.mpr ⟨unmarked, before.put valueWritten key⟩) others ran
      refine ⟨written, fun name => ?_⟩
      obtain ⟨kept, added⟩ := each name
      rw [Value.inner, Entries.get?_put] at kept added
      rw [Entries.get?_cons, Value.inner]
      by_cases same : name = key
      · subst same
        rw [if_pos rfl] at kept
        rw [if_pos rfl]
        constructor
        · intro impossible
          cases impossible
        · rintro type ⟨⟩
          exact ⟨absent, kept (Entries.get?_eq_none_iff.mpr fresh)⟩
      · rw [if_neg same] at kept added
        rw [if_neg (Ne.symm same)]
        exact ⟨kept, added⟩

structure Extends (dictionary : Fields) (c : Contribution) (extended : Fields) : Prop where
  written : Written (.record extended)
  merged : ∀ name, Merged (Entries.get? name (Entries.attributes c.dictionary))
    (Entries.get? name (Entries.attributes dictionary)) (Entries.get? name (Entries.attributes extended))
  typeKept : ∀ name, Entries.get? name (declaredTypes c.dictionary) = none →
    Entries.get? name (declaredTypes extended) = Entries.get? name (declaredTypes dictionary)
  typeAdded : ∀ name type, Entries.get? name (declaredTypes c.dictionary) = some type →
    Entries.get? name (declaredTypes dictionary) = none ∧
      Entries.get? name (declaredTypes extended) = some type

/-- The attributes and the types are merged each on its own, and nothing else is written. -/
theorem extendDictionary_ok {c : Contribution} {dictionary extended : Fields}
    (ran : (c.extendDictionary dictionary).Yields extended) :
    ∃ new attributes types newTypes newTypeAttributes typeAttributes,
      (Entries.orEmpty "attributes" c.dictionary).asFields = .ok new ∧
      (mergeAttributes c.extension (Entries.orEmpty "attributes" dictionary)
        (shiftFields (boundFields dictionary) new)).Yields attributes ∧
      (Entries.orEmpty "types" dictionary).asFields = .ok types ∧
      (Entries.orEmpty "types" c.dictionary).asFields = .ok newTypes ∧
      (Entries.orEmpty "attributes" newTypes).asFields = .ok newTypeAttributes ∧
      newTypeAttributes.foldlM (fun base entry => addType c.extension base entry.1 entry.2)
        (Entries.orEmpty "attributes" types) = .ok typeAttributes ∧
      extended = Entries.put "types" (.record (Entries.put "attributes" typeAttributes types))
        (Entries.put "attributes" attributes dictionary) := by
  unfold extendDictionary at ran
  obtain ⟨new, openedNew, ran⟩ := Act.yields_bind ran
  obtain ⟨attributes, mergedAttributes, ran⟩ := Act.yields_bind ran
  obtain ⟨types, openedTypes, ran⟩ := Act.yields_bind ran
  obtain ⟨newTypes, openedNewTypes, ran⟩ := Act.yields_bind ran
  obtain ⟨newTypeAttributes, openedInner, ran⟩ := Act.yields_bind ran
  obtain ⟨typeAttributes, mergedTypes, ran⟩ := Act.yields_bind ran
  exact ⟨new, attributes, types, newTypes, newTypeAttributes, typeAttributes,
    Act.yields_lift.mp openedNew, mergedAttributes, Act.yields_lift.mp openedTypes,
    Act.yields_lift.mp openedNewTypes, Act.yields_lift.mp openedInner,
    Act.yields_foldlM_lift mergedTypes, (Act.yields_pure.mp ran).symm⟩

private theorem extends_of_yields {c : Contribution} {dictionary extended : Fields}
    (whole : Written (.record dictionary)) (given : Written (.record c.dictionary))
    (ran : (c.extendDictionary dictionary).Yields extended) : Extends dictionary c extended := by
  obtain ⟨new, attributes, types, newTypes, newTypeAttributes, typeAttributes, openedNew,
    mergedAttributes, openedTypes, openedNewTypes, openedNewTypeAttributes, mergedTypes, shape⟩ :=
    extendDictionary_ok ran
  obtain ⟨markNew, newIs⟩ := inner_of_asFields openedNew
  have newWritten : Written (.record new) := (written_object.mp (newIs ▸ given.orEmpty _)).2
  rw [shiftFields_of_plain _ new newWritten.plainFields] at mergedAttributes
  obtain ⟨markTypes, typesAre⟩ := inner_of_asFields openedTypes
  obtain ⟨markNewTypes, newTypesAre⟩ := inner_of_asFields openedNewTypes
  obtain ⟨markInner, newTypeAttributesAre⟩ :=
    inner_of_asFields openedNewTypeAttributes
  have typesWritten : Written (.record types) := (written_object.mp (typesAre ▸ whole.orEmpty _)).2
  have newTypesWritten : Written (.record newTypes) :=
    (written_object.mp (newTypesAre ▸ given.orEmpty _)).2
  have newTypeAttributesWritten : Written (.record newTypeAttributes) :=
    (written_object.mp (newTypeAttributesAre ▸ newTypesWritten.orEmpty _)).2
  obtain ⟨attributesWritten, eachAttribute⟩ :=
    mergeAttributes_ok (whole.orEmpty _) newWritten mergedAttributes
  obtain ⟨typeAttributesWritten, eachType⟩ := addTypes_ok (typesWritten.orEmpty _)
    newTypeAttributesWritten mergedTypes
  have attributesAre : Entries.attributes extended = attributes.inner := by
    rw [shape, Entries.attributes_put_of_ne (by decide),
      Entries.attributes_eq_inner, Entries.orEmpty_put_self]
  have typesOfDictionary : declaredTypes dictionary =
      (Entries.orEmpty "attributes" types).inner := by
    rw [declaredTypes, typesAre, Value.inner, Entries.attributes_eq_inner]
  have typesOfNew : declaredTypes c.dictionary = newTypeAttributes := by
    rw [declaredTypes, newTypesAre, Value.inner, Entries.attributes_eq_inner, newTypeAttributesAre,
      Value.inner]
  have typesOfExtended : declaredTypes extended = typeAttributes.inner := by
    rw [shape, declaredTypes, Entries.orEmpty_put_self, record, Value.inner,
      Entries.attributes_eq_inner, Entries.orEmpty_put_self]
  have attributesOfNew : Entries.attributes c.dictionary = new := by
    rw [Entries.attributes_eq_inner, newIs, Value.inner]
  refine ⟨?_, fun name => ?_, fun name => ?_, fun name => ?_⟩
  · rw [shape]
    exact (whole.put attributesWritten _).put (typesWritten.put typeAttributesWritten _) _
  · rw [attributesAre, attributesOfNew, Entries.attributes_eq_inner]
    exact eachAttribute name
  · rw [typesOfExtended, typesOfNew, typesOfDictionary]
    exact (eachType name).1
  · rw [typesOfExtended, typesOfNew, typesOfDictionary]
    exact (eachType name).2

/-! ### Stamped dictionaries -/

theorem stamp_ok {extension : Extension} {value result : Value}
    (ran : stamp extension value = .ok result) :
    ∃ mark fields, value = .object mark fields ∧ result = .object mark (stampFields extension fields) := by
  cases value with
  | object mark fields => exact ⟨mark, fields, rfl, (Except.ok.inj ran).symm⟩
  | null | bool _ | int _ | float _ | text _ | array _ => cases ran

private theorem written_stamp {extension : Extension} {value result : Value} (written : Written value)
    (ran : stamp extension value = .ok result) : Written result := by
  obtain ⟨mark, fields, rfl, rfl⟩ := stamp_ok ran
  obtain ⟨unmarked, inside⟩ := written_object.mp written
  exact written_object.mpr ⟨unmarked, (inside.put (written_of_not_object rfl) _).put
    (written_of_not_object rfl) _⟩

theorem stampSection_related {extension : Extension} {value result : Value}
    (ran : stampSection extension value = .ok result) :
    Entries.Related (fun _ before after => stamp extension before = .ok after) value.inner
      result.inner := by
  obtain ⟨fields, opened, ran⟩ := bind_eq_ok.mp ran
  obtain ⟨results, each, ran⟩ := bind_eq_ok.mp ran
  obtain ⟨mark, same⟩ := inner_of_asFields opened
  rw [← pure_eq_ok.mp ran, same]
  exact Entries.mapM_eq_ok.mp each

private theorem stampSection_ok {extension : Extension} {value result : Value} (written : Written value)
    (ran : stampSection extension value = .ok result) : Written result ∧
      Entries.Related (fun _ before after => stamp extension before = .ok after) value.inner
        result.inner := by
  have related := stampSection_related ran
  refine ⟨?_, related⟩
  obtain ⟨fields, opened, ran⟩ := bind_eq_ok.mp ran
  obtain ⟨results, each, ran⟩ := bind_eq_ok.mp ran
  obtain ⟨mark, same⟩ := inner_of_asFields opened
  rw [← pure_eq_ok.mp ran] at related ⊢
  rw [same] at written related
  have inside := (written_object.mp written).2
  refine written_record.mpr ⟨related.distinct inside.distinct, fun entry member => ?_⟩
  obtain ⟨before, known, stamped⟩ := related.mem_right member
  exact written_stamp (inside.of_mem known) stamped

theorem stampedAttributes_ok {c stamped : Contribution} (ran : c.stamped = .ok stamped) :
    ∃ attributes, stampSection c.extension (Entries.orEmpty "attributes" c.dictionary) = .ok attributes ∧
      Entries.attributes stamped.dictionary = attributes.inner := by
  obtain ⟨_, _, ran⟩ := bind_eq_ok.mp ran
  obtain ⟨_, _, ran⟩ := bind_eq_ok.mp ran
  obtain ⟨types, _, ran⟩ := bind_eq_ok.mp ran
  obtain ⟨attributes, stampedAttributes, ran⟩ := bind_eq_ok.mp ran
  obtain ⟨typeAttributes, _, ran⟩ := bind_eq_ok.mp ran
  refine ⟨attributes, stampedAttributes, ?_⟩
  rw [← pure_eq_ok.mp ran, Entries.attributes_put_of_ne (by decide),
    Entries.attributes_eq_inner, Entries.orEmpty_put_self]

/-- A dictionary as an extension may bring it: a document whose attributes say what they hold by a
text, if they say it. -/
structure Authored (c : Contribution) : Prop where
  written : Written (.record c.dictionary)
  typed : ∀ entry ∈ Entries.attributes c.dictionary, ∀ mark fields, entry.2 = .object mark fields →
    ∀ key : Text, key = "type" ∨ key = "object_type" →
      Entries.orNull key fields = .null ∨ ∃ text, Entries.orNull key fields = .text text

/-- What being stamped adds to such a dictionary: every definition in it has an owner. -/
structure Ready (c : Contribution) : Prop extends Authored c where
  owned : ∀ entry ∈ Entries.attributes c.dictionary, ∃ mark fields, entry.2 = .object mark fields ∧
    Entries.get? extensionKey fields ≠ none

private theorem ready_of_stamped {c stamped : Contribution} (authored : Authored c)
    (ran : c.stamped = .ok stamped) : Ready stamped := by
  obtain ⟨_, _, ran⟩ := bind_eq_ok.mp ran
  obtain ⟨_, _, ran⟩ := bind_eq_ok.mp ran
  obtain ⟨types, openedTypes, ran⟩ := bind_eq_ok.mp ran
  obtain ⟨attributes, stampedAttributes, ran⟩ := bind_eq_ok.mp ran
  obtain ⟨typeAttributes, stampedTypes, ran⟩ := bind_eq_ok.mp ran
  obtain ⟨mark, typesAre⟩ := inner_of_asFields openedTypes
  have typesWritten : Written (.record types) :=
    (written_object.mp (typesAre ▸ authored.written.orEmpty _)).2
  obtain ⟨attributesWritten, related⟩ := stampSection_ok (authored.written.orEmpty _) stampedAttributes
  obtain ⟨typeAttributesWritten, _⟩ := stampSection_ok (typesWritten.orEmpty _) stampedTypes
  have attributesAre : Entries.attributes stamped.dictionary = attributes.inner := by
    rw [← pure_eq_ok.mp ran, Entries.attributes_put_of_ne (by decide),
      Entries.attributes_eq_inner, Entries.orEmpty_put_self]
  have origin {entry : Text × Value} (member : entry ∈ Entries.attributes stamped.dictionary) :
      ∃ mark fields, (entry.1, .object mark fields) ∈ Entries.attributes c.dictionary ∧
        entry.2 = .object mark (stampFields c.extension fields) := by
    rw [attributesAre] at member
    obtain ⟨before, known, stamped⟩ := related.mem_right member
    obtain ⟨mark, fields, rfl, same⟩ := stamp_ok stamped
    rw [← Entries.attributes_eq_inner] at known
    exact ⟨mark, fields, known, same⟩
  refine ⟨⟨?_, ?_⟩, ?_⟩
  · rw [← pure_eq_ok.mp ran]
    exact (authored.written.put attributesWritten _).put (typesWritten.put typeAttributesWritten _) _
  · intro entry member own given same key decides
    obtain ⟨mark, fields, known, shape⟩ := origin member
    rw [shape, Value.object.injEq] at same
    have kept : Entries.orNull key given = Entries.orNull key fields := by
      rw [← same.2, Entries.orNull, Entries.orNull, Entries.getOr, Entries.getOr, stampFields,
        Entries.get?_put, Entries.get?_put]
      rcases decides with rfl | rfl
      · rw [if_neg (by decide), if_neg (by decide)]
      · rw [if_neg (by decide), if_neg (by decide)]
    rw [kept]
    exact authored.typed _ known mark fields rfl key decides
  · intro entry member
    obtain ⟨mark, fields, _, shape⟩ := origin member
    refine ⟨mark, _, shape, ?_⟩
    rw [stampFields, Entries.get?_put, if_neg (by decide), Entries.get?_put_self]
    exact fun impossible => by cases impossible

/-! ### Any sequence of merges -/

/-- Under the name stands what exactly one of the contributions defines there, or, if nothing stands
there, none of them defines anything. -/
def ComesOfOne (define : Contribution → Fields) (all : List Contribution) (name : Text) :
    Option Value → Prop
  | none => ∀ c ∈ all, Entries.get? name (define c) = none
  | some value => ∃ before c after, all = before ++ c :: after ∧
      Entries.get? name (define c) = some value ∧
        ∀ other ∈ before ++ after, Entries.get? name (define other) = none

/-- What an attribute of the base schema keeps, whatever is merged into it. -/
structure Keeps (all : List Contribution) (name : Text) (old new : Fields) : Prop where
  filled : new ≠ []
  type : Entries.orNull "type" new = Entries.orNull "type" old
  objectType : Entries.orNull "object_type" new = Entries.orNull "object_type" old
  free : Entries.get? extensionKey new = none
  number : Entries.get? "extension_id" new = Entries.get? "extension_id" old
  frame : ∀ field, (∀ c ∈ all, ∀ mark given,
      Entries.get? name (Entries.attributes c.dictionary) = some (.object mark given) →
        Entries.get? field given = none) →
    Entries.get? field new = Entries.get? field old

structure Extended (base : Fields) (all : List Contribution) (dictionary : Fields) : Prop where
  written : Written (.record dictionary)
  kept : ∀ name mark old, Entries.get? name (Entries.attributes base) = some (.object mark old) →
    ∃ new, Entries.get? name (Entries.attributes dictionary) = some (.object mark new) ∧
      Keeps all name old new
  added : ∀ name, Entries.get? name (Entries.attributes base) = none →
    ComesOfOne (Entries.attributes ·.dictionary) all name
      (Entries.get? name (Entries.attributes dictionary))
  typeKept : ∀ name type, Entries.get? name (declaredTypes base) = some type →
    Entries.get? name (declaredTypes dictionary) = some type
  typeAdded : ∀ name, Entries.get? name (declaredTypes base) = none →
    ComesOfOne (declaredTypes ·.dictionary) all name (Entries.get? name (declaredTypes dictionary))

section Sequence

variable {define : Contribution → Fields} {all : List Contribution} {c : Contribution} {name : Text}

theorem ComesOfOne.untouched {found : Option Value} (comes : ComesOfOne define all name found)
    (absent : Entries.get? name (define c) = none) : ComesOfOne define (all ++ [c]) name found := by
  cases found with
  | none => exact List.forall_mem_append.mpr ⟨comes, List.forall_mem_singleton.mpr absent⟩
  | some value =>
      obtain ⟨before, source, after, same, given, others⟩ := comes
      refine ⟨before, source, after ++ [c], by rw [same, List.append_assoc, List.cons_append], given, ?_⟩
      rw [← List.append_assoc]
      exact List.forall_mem_append.mpr ⟨others, List.forall_mem_singleton.mpr absent⟩

theorem ComesOfOne.added {value : Value} (fresh : ComesOfOne define all name none)
    (given : Entries.get? name (define c) = some value) :
    ComesOfOne define (all ++ [c]) name (some value) :=
  ⟨all, c, [], rfl, given, by rwa [List.append_nil]⟩

theorem ComesOfOne.exists_source {value : Value} (comes : ComesOfOne define all name (some value)) :
    ∃ c ∈ all, Entries.get? name (define c) = some value := by
  obtain ⟨before, source, after, same, given, _⟩ := comes
  exact ⟨source, same ▸ List.mem_append_right _ (List.mem_cons_self ..), given⟩

theorem Keeps.refl {old : Fields} (filled : old ≠ []) (free : Entries.get? extensionKey old = none) :
    Keeps [] name old old := ⟨filled, rfl, rfl, free, rfl, fun _ _ => rfl⟩

/-- A refinement that passes the guards changes neither the type nor the object type. -/
theorem orNull_refined {key : Text} {old given : Fields} (distinct : Entries.Distinct given)
    (shared : key ≠ "extension_id" ∧ key ≠ extensionKey)
    (typed : Entries.orNull key given = .null ∨ ∃ text, Entries.orNull key given = .text text)
    (guard : ∀ value, Entries.get? key given = some value →
      value.equals (Entries.orNull key old) = true) :
    Entries.orNull key (mergeFields old (unowned given)) = Entries.orNull key old := by
  have merged := get?_mergeFields key old ((distinct.erase extensionKey).erase "extension_id")
  rw [← unowned, get?_unowned, if_neg (not_or.mpr shared)] at merged
  cases found : Entries.get? key given with
  | none =>
      rw [found] at merged
      rw [Entries.orNull, Entries.orNull, Entries.getOr, Entries.getOr, merged]
  | some value =>
      have here : Entries.orNull key given = value := by
        rw [Entries.orNull, Entries.getOr, found, Option.getD_some]
      rw [here] at typed
      have same : Entries.orNull key old = value := by
        rcases typed with rfl | ⟨text, rfl⟩
        · exact null_equals.mp (guard _ found)
        · exact text_equals.mp (guard _ found)
      have shape : value.isObject = false := by
        rcases typed with rfl | ⟨text, rfl⟩ <;> rfl
      have written : Entries.get? key (mergeFields old (unowned given)) = some value := by
        rw [merged, found]
        cases Entries.get? key old with
        | none => rfl
        | some before => exact congrArg some (merge_apart (Or.inr shape))
      rw [same, Entries.orNull, Entries.getOr, written, Option.getD_some]

theorem Keeps.step {old middle : Fields} {mark : Option Nat} {result : Option Value}
    (keeps : Keeps all name old middle) (ready : Ready c)
    (merged : Merged (Entries.get? name (Entries.attributes c.dictionary))
      (some (.object mark middle)) result) :
    ∃ new, result = some (.object mark new) ∧ Keeps (all ++ [c]) name old new := by
  have frame {field : Text} (silent : ∀ other ∈ all ++ [c], ∀ mark given,
      Entries.get? name (Entries.attributes other.dictionary) = some (.object mark given) →
        Entries.get? field given = none) : Entries.get? field middle = Entries.get? field old :=
    keeps.frame field fun other member => silent other (List.mem_append_left _ member)
  generalize given : Entries.get? name (Entries.attributes c.dictionary) = offered at merged
  generalize shape : some (Value.object mark middle) = before at merged
  cases merged with
  | untouched =>
      exact ⟨middle, shape.symm, { keeps with frame := fun _ silent => frame silent }⟩
  | added => cases shape
  | @refined context own _ fields _ filled safe =>
      cases shape
      obtain ⟨_, _, same, free, guards⟩ := refinable_ok safe
      cases same
      have member := Entries.mem_of_get? given
      have typed := ready.typed _ member own fields rfl
      have inside := (written_object.mp (ready.written.attributes.of_get? given)).2
      have silent {field : Text} (absent : Entries.get? field (unowned fields) = none) :
          Entries.get? field (mergeFields middle (unowned fields)) = Entries.get? field middle :=
        get?_mergeFields_of_absent absent middle
      refine ⟨_, rfl, ?_, ?_, ?_, ?_, ?_, fun field each => ?_⟩
      · intro empty
        obtain ⟨entry, rest, nonempty⟩ := List.exists_cons_of_ne_nil filled
        have lost : Entries.get? entry.1 (mergeFields middle (unowned fields)) = none := by rw [empty]; rfl
        have gone := (get?_mergeFields_eq_none.mp lost).1
        rw [nonempty, Entries.get?_cons, if_pos rfl] at gone
        cases gone
      · exact (orNull_refined inside.distinct (by decide) (typed _ (Or.inl rfl))
          (guards _ (Or.inl rfl))).trans keeps.type
      · exact (orNull_refined inside.distinct (by decide) (typed _ (Or.inr rfl))
          (guards _ (Or.inr rfl))).trans keeps.objectType
      · rw [silent (by rw [get?_unowned, if_pos (Or.inr rfl)]), free]
      · rw [silent (by rw [get?_unowned, if_pos (Or.inl rfl)]), keeps.number]
      · have absent := each c (List.mem_append_right _ (List.mem_singleton_self c)) own fields given
        rw [silent (by rw [get?_unowned, absent, ite_self]), frame each]
  | replaced bare =>
      cases shape
      cases middle with
      | nil => exact absurd rfl keeps.filled
      | cons => cases bare

/-- What stands under a name that is not the base schema's has an owner, so nothing is merged there. -/
theorem ComesOfOne.silent {value : Value} {offered result : Option Value}
    (comes : ComesOfOne (Entries.attributes ·.dictionary) all name (some value))
    (ready : ∀ other ∈ all, Ready other) (merged : Merged offered (some value) result) :
    offered = none := by
  obtain ⟨other, member, given⟩ := comes.exists_source
  obtain ⟨mark, fields, same, owner⟩ := (ready other member).owned _ (Entries.mem_of_get? given)
  cases same
  cases merged with
  | untouched => rfl
  | refined filled safe =>
      obtain ⟨_, _, same, free, _⟩ := refinable_ok safe
      cases same
      exact absurd free owner
  | replaced bare =>
      cases fields with
      | nil => exact absurd rfl owner
      | cons => cases bare

theorem ComesOfOne.step {found result : Option Value}
    (comes : ComesOfOne (Entries.attributes ·.dictionary) all name found)
    (ready : ∀ other ∈ all, Ready other)
    (merged : Merged (Entries.get? name (Entries.attributes c.dictionary)) found result) :
    ComesOfOne (Entries.attributes ·.dictionary) (all ++ [c]) name result := by
  cases found with
  | none =>
      generalize given : Entries.get? name (Entries.attributes c.dictionary) = offered at merged
      cases merged with
      | untouched => exact comes.untouched given
      | added new => exact comes.added given
  | some value =>
      have given := comes.silent ready merged
      rw [given] at merged
      cases merged
      exact comes.untouched given

theorem Extended.step {base dictionary extended : Fields} (sofar : Extended base all dictionary)
    (ready : ∀ other ∈ all ++ [c], Ready other) (ran : Extends dictionary c extended) :
    Extended base (all ++ [c]) extended := by
  obtain ⟨before, last⟩ := List.forall_mem_append.mp ready
  have own := last c (List.mem_singleton_self c)
  refine ⟨ran.written, fun name mark old known => ?_, fun name absent => ?_,
    fun name type known => ?_, fun name absent => ?_⟩
  · obtain ⟨middle, present, keeps⟩ := sofar.kept name mark old known
    exact keeps.step own (present ▸ ran.merged name)
  · exact (sofar.added name absent).step before (ran.merged name)
  · have present := sofar.typeKept name type known
    cases offered : Entries.get? name (declaredTypes c.dictionary) with
    | none => rw [ran.typeKept name offered, present]
    | some new =>
        rw [(ran.typeAdded name new offered).1] at present
        cases present
  · have comes := sofar.typeAdded name absent
    cases offered : Entries.get? name (declaredTypes c.dictionary) with
    | none =>
        rw [ran.typeKept name offered]
        exact comes.untouched offered
    | some new =>
        obtain ⟨fresh, present⟩ := ran.typeAdded name new offered
        rw [fresh] at comes
        rw [present]
        exact comes.added offered

end Sequence

/-- Attributes as a base schema defines them: objects that say something and that nobody owns. -/
def Unowned (dictionary : Fields) : Prop :=
  ∀ entry ∈ Entries.attributes dictionary, ∃ mark fields, entry.2 = .object mark fields ∧ fields ≠ [] ∧
    Entries.get? extensionKey fields = none

private theorem extended_nil {base : Fields} (written : Written (.record base)) (unowned : Unowned base) :
    Extended base [] base where
  written := written
  kept name mark old known := by
    obtain ⟨_, _, same, filled, free⟩ := unowned _ (Entries.mem_of_get? known)
    cases same
    exact ⟨old, known, Keeps.refl filled free⟩
  added name absent := absent ▸ fun c impossible => by cases impossible
  typeKept _ _ known := known
  typeAdded name absent := absent ▸ fun c impossible => by cases impossible

private theorem extended_of_yields {base result : Fields} {all : List Contribution}
    (written : Written (.record base)) (unowned : Unowned base) (ready : ∀ c ∈ all, Ready c)
    (ran : (all.foldlM (fun dictionary c => extendDictionary c dictionary) base).Yields result) :
    Extended base all result := by
  refine Act.foldlM_progress
    (motive := fun done dictionary => (∀ c ∈ done, Ready c) → Extended base done dictionary)
    ran (fun _ => extended_nil written unowned) ?_ ready
  intro done c dictionary next before step ready
  have sofar := before fun other member => ready other (List.mem_append_left _ member)
  have own := ready c (List.mem_append_right _ (List.mem_singleton_self c))
  exact sofar.step ready (extends_of_yields sofar.written own.written step)

/-- Any sequence of merges that succeeds keeps the attributes and the types of the base schema and
takes everything else from the one extension that defines it. One more merge succeeds only if it
defines neither an attribute that another extension has added nor a type that is there. -/
theorem extendDictionary_keeps_ownership {base result : Fields} {contributions all : List Contribution}
    (written : Written (.record base)) (unowned : Unowned base)
    (authored : ∀ c ∈ contributions, Authored c)
    (stamped : contributions.mapM Contribution.stamped = .ok all)
    (ran : (all.foldlM (fun dictionary c => extendDictionary c dictionary) base).Yields result) :
    Extended base all result ∧ ∀ c further extended, Authored c → c.stamped = .ok further →
      (further.extendDictionary result).Yields extended →
        (∀ name, Entries.get? name (Entries.attributes base) = none →
          Entries.get? name (Entries.attributes result) ≠ none →
            Entries.get? name (Entries.attributes further.dictionary) = none) ∧
        ∀ name, Entries.get? name (declaredTypes result) ≠ none →
          Entries.get? name (declaredTypes further.dictionary) = none := by
  have ready : ∀ c ∈ all, Ready c := by
    intro c member
    obtain ⟨origin, known, ran⟩ := exists_left_of_mem (mapM_eq_ok.mp stamped) member
    exact ready_of_stamped (authored origin known) ran
  have extended := extended_of_yields written unowned ready ran
  refine ⟨extended, fun c further next authored stamped ran => ?_⟩
  have step := extends_of_yields extended.written (ready_of_stamped authored stamped).written ran
  constructor
  · intro name foreign present
    obtain ⟨value, found⟩ := Option.ne_none_iff_exists'.mp present
    exact (found ▸ extended.added name foreign).silent ready (found ▸ step.merged name)
  · intro name present
    by_contra defined
    obtain ⟨type, given⟩ := Option.ne_none_iff_exists'.mp defined
    exact present (step.typeAdded name type given).1

def ofDictionary (name : Text) (uid : Int) (attributes types : Fields) : Contribution where
  extension := {
    name, uid
    path := (name : Path)
    version := .null
    caption := .null
    description := .null
    isPlatform := false }
  categories := []
  classes := []
  classPatches := []
  objects := []
  objectPatches := []
  dictionary := [("attributes", .record attributes), ("types", .record [("attributes", .record types)])]
  profiles := []

def wholeNumber : Value := .record [("type", .text "integer_t")]

def severityAndStatus : Fields :=
  [("attributes", .record [("severity", wholeNumber), ("status", wholeNumber)])]

/-- Two extensions: each refines one of the attributes, one adds an attribute and the other its type. -/
def refining : List Contribution :=
  [ofDictionary "corp" 7 [("severity", .record [("caption", .text "How bad it is")]),
      ("badge", .record [("type", .text "badge_t")])] [],
    ofDictionary "door" 8 [("status", .record [("caption", .text "Open or shut"), ("type", .text "integer_t")])]
      [("badge_t", .record [])]]

private theorem authored_refining : ∀ c ∈ refining, Authored c := by
  intro c member
  rcases List.mem_cons.mp member with rfl | member
  · refine ⟨by decide, fun entry member mark fields same key decides => ?_⟩
    rcases List.mem_cons.mp member with rfl | member
    · cases same
      rcases decides with rfl | rfl <;> exact Or.inl rfl
    · cases List.mem_singleton.mp member
      cases same
      rcases decides with rfl | rfl
      · exact Or.inr ⟨_, rfl⟩
      · exact Or.inl rfl
  · cases List.mem_singleton.mp member
    refine ⟨by decide, fun entry member mark fields same key decides => ?_⟩
    cases List.mem_singleton.mp member
    cases same
    rcases decides with rfl | rfl
    · exact Or.inr ⟨_, rfl⟩
    · exact Or.inl rfl

def mergeAll (base : Fields) (contributions : List Contribution) : Act Fields := do
  let all ← (contributions.mapM Contribution.stamped : Except Fault (List Contribution))
  all.foldlM (fun dictionary c => extendDictionary c dictionary) base

theorem mergeAll_yields {base result : Fields} {contributions : List Contribution}
    (ran : (mergeAll base contributions).Yields result) :
    ∃ all, contributions.mapM Contribution.stamped = .ok all ∧
      (all.foldlM (fun dictionary c => extendDictionary c dictionary) base).Yields result := by
  obtain ⟨all, stamped, ran⟩ := Act.yields_bind ran
  exact ⟨all, Act.yields_lift.mp stamped, ran⟩

theorem extendDictionary_keeps_ownership_refining : ∃ all result,
    refining.mapM Contribution.stamped = .ok all ∧
      (all.foldlM (fun dictionary c => extendDictionary c dictionary) severityAndStatus).Yields result ∧
        Entries.keys (Entries.attributes result) = ["severity", "status", "badge"] ∧
          Extended severityAndStatus all result := by
  have evaluated : ((mergeAll severityAndStatus refining).outcome {}).1.toOption.map
      (fun result => Entries.keys (Entries.attributes result)) =
        some (["severity", "status", "badge"] : List Text) := by
    decide +kernel
  obtain ⟨result, yields, names⟩ := Act.exists_of_outcome evaluated
  obtain ⟨all, stamped, ran⟩ := mergeAll_yields yields
  have unowned : Unowned severityAndStatus := by
    intro entry member
    rcases List.mem_cons.mp member with rfl | member
    · exact ⟨none, _, rfl, by decide, by decide⟩
    · cases List.mem_singleton.mp member
      exact ⟨none, _, rfl, by decide, by decide⟩
  exact ⟨all, result, stamped, ran, names,
    (extendDictionary_keeps_ownership (by decide) unowned authored_refining stamped ran).1⟩

/-- A dictionary whose attributes get their constants from one annotation. -/
def annotatedNumbers : Fields :=
  [("annotations", .record [("enum", .record [("0", .record [])])]),
    ("attributes", .record [("severity", wholeNumber), ("status", wholeNumber)])]

def addingConstant : List Contribution :=
  [ofDictionary "corp" 7 [("severity", .record [("enum", .record [("1", .record [])])])] []]

/-- The constants of an attribute, apart from where else they stand. -/
def constantsOf (name : Text) (dictionary : Fields) : List Text :=
  Entries.keys (Entries.orNull "enum" (Entries.orNull name (Entries.attributes dictionary)).inner).inner

/-- The constant shows at the other attribute as well, which no extension mentions. -/
theorem extendDictionary_changes_unmentioned : ∃ base all result,
    Fragment.annotate none annotatedNumbers = .ok base ∧ Unowned base ∧
      addingConstant.mapM Contribution.stamped = .ok all ∧
      (∀ c ∈ addingConstant, Entries.get? "status" (Entries.attributes c.dictionary) = none) ∧
      (all.foldlM (fun dictionary c => extendDictionary c dictionary) base).Yields result ∧
      constantsOf "status" base = ["0"] ∧ constantsOf "status" result = ["0", "1"] := by
  cases annotated : Fragment.annotate none annotatedNumbers with
  | error fault => cases annotated
  | ok base =>
      have unowned : Unowned base := by
        cases annotated
        intro entry member
        rcases List.mem_cons.mp member with rfl | member
        · exact ⟨none, _, rfl, by decide, by decide⟩
        · cases List.mem_singleton.mp member
          exact ⟨none, _, rfl, by decide, by decide⟩
      have evaluated : ((mergeAll base addingConstant).outcome {}).1.toOption.map
          (constantsOf "status") = some (["0", "1"] : List Text) := by
        cases annotated
        decide +kernel
      obtain ⟨result, yields, shown⟩ := Act.exists_of_outcome evaluated
      obtain ⟨all, stamped, ran⟩ := mergeAll_yields yields
      refine ⟨base, all, result, rfl, unowned, stamped, by decide, ran, ?_, shown⟩
      cases annotated
      decide

end Contribution

end EventSchema
