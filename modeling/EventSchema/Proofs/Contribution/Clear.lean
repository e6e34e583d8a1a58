import EventSchema.Compilation
import EventSchema.Proofs.Contribution.Dictionary
import EventSchema.Proofs.Draft.Observables

/-!
Contributions that refer to nothing in a scope.

Preparing a contribution stamps it with its extension and writes out references to profiles, and
merging its dictionary brings its attributes and types into that of the schema. If nothing in a
contribution leads into a scope, and its extension is not the one of the scope, then nothing leads
into it after all of this. An extension that only adds items stays one that marks nothing.
-/

set_option autoImplicit false

namespace EventSchema

open Value

variable {scope : Text}

def ClearEach (scope : Text) (items : Entries Fields) : Prop :=
  ∀ entry ∈ items, ClearFields scope entry.2

instance (scope : Text) : DecidablePred (ClearEach scope) :=
  fun items => inferInstanceAs (Decidable (∀ entry ∈ items, _))

private theorem Value.clearFields_of_mapM {f : Text × Value → Except Fault Value} {fields results : Fields}
    (ran : (fields.mapM fun entry => do return (entry.1, ← f entry)) = .ok results)
    (each : ∀ entry ∈ fields, ∀ result, f entry = .ok result →
      ClearField scope (entry.1, result) ∧ Clear scope result) : ClearFields scope results := by
  refine clearFields_iff.mpr fun entry member => ?_
  obtain ⟨before, known, treated⟩ := (Entries.mapM_eq_ok.mp ran).mem_right member
  exact each _ known _ treated

namespace Contribution

variable {c : Contribution} {e : Extension}

structure ClearOf (scope : Text) (c : Contribution) : Prop where
  dictionary : ClearFields scope c.dictionary
  classes : ClearEach scope c.classes
  classPatches : ClearEach scope c.classPatches
  objects : ClearEach scope c.objects
  objectPatches : ClearEach scope c.objectPatches
  profiles : ClearEach scope c.profiles

instance (scope : Text) : DecidablePred (ClearOf scope) := fun c =>
  decidable_of_iff (ClearFields scope c.dictionary ∧ ClearEach scope c.classes ∧
      ClearEach scope c.classPatches ∧ ClearEach scope c.objects ∧ ClearEach scope c.objectPatches ∧
      ClearEach scope c.profiles)
    ⟨fun ⟨dictionary, classes, classPatches, objects, objectPatches, profiles⟩ =>
      { dictionary, classes, classPatches, objects, objectPatches, profiles },
    fun clear => ⟨clear.dictionary, clear.classes, clear.classPatches, clear.objects,
      clear.objectPatches, clear.profiles⟩⟩

/-! ### Stamped -/

private theorem clear_stampFields (foreign : Scope.owns scope (e.name ++ "/") = false) {fields : Fields}
    (clear : ClearFields scope fields) : ClearFields scope (stampFields e fields) := by
  have silent : extensionKey ∉ referringKeys := by decide
  have owner : ClearField scope (extensionKey, .text e.name) :=
    fun _ => ⟨fun reference => absurd reference silent, fun _ _ => foreign⟩
  exact (clear.put owner (clear_of_not_object rfl)).put (clearField_of_key (by decide) _)
    (clear_of_not_object rfl)

private theorem clearEach_stamped (foreign : Scope.owns scope (e.name ++ "/") = false)
    {items : Entries Fields} (clear : ClearEach scope items) :
    ClearEach scope (Entries.mapValues (stampFields e) items) := by
  intro entry member
  obtain ⟨before, known, rfl⟩ := List.mem_map.mp member
  exact clear_stampFields foreign (clear before known)

private theorem clear_stampSection (foreign : Scope.owns scope (e.name ++ "/") = false) {value result : Value}
    (clear : Clear scope value) (ran : stampSection e value = .ok result) : Clear scope result := by
  obtain ⟨fields, opened, ran⟩ := bind_eq_ok.mp ran
  obtain ⟨results, each, ran⟩ := bind_eq_ok.mp ran
  rw [← pure_eq_ok.mp ran, clear_record]
  refine clearFields_of_mapM each fun entry member stamped treated => ?_
  obtain ⟨mark, own, shape, rfl⟩ := stamp_ok treated
  have inside := (clearFields_iff.mp (clear.asFields opened) entry member).2
  rw [shape] at inside
  exact ⟨clearField_of_object rfl, clear_object.mpr (clear_stampFields foreign (clear_object.mp inside))⟩

theorem stampCategory_ok {category result : Value} (ran : stampCategory e category = .ok result) :
    ∃ mark fields uid full, category = .object mark fields ∧ Entries.get? "uid" fields = some uid ∧
      Uid.category (.int e.uid) uid = .ok full ∧
      result = .object mark (stampFields e (Entries.put "uid" full fields)) := by
  unfold stampCategory at ran
  cases category with
  | object mark fields =>
      rw [Value.at_] at ran
      cases found : Entries.get? "uid" fields with
      | none =>
          rw [found] at ran
          cases ran
      | some uid =>
          rw [found] at ran
          obtain ⟨_, given, ran⟩ := bind_eq_ok.mp ran
          cases given
          obtain ⟨full, within, ran⟩ := bind_eq_ok.mp ran
          exact ⟨mark, fields, uid, full, rfl, found, within, (Except.ok.inj ran).symm⟩
  | null | bool _ | int _ | float _ | text _ | array _ => cases ran

theorem stamped_ok {stamped : Contribution} (ran : c.stamped = .ok stamped) :
    ∃ types attributes typeAttributes entries categories,
      (Entries.orEmpty "types" c.dictionary).asFields = .ok types ∧
      stampSection c.extension (Entries.orEmpty "attributes" c.dictionary) = .ok attributes ∧
      stampSection c.extension (Entries.orEmpty "attributes" types) = .ok typeAttributes ∧
      (Entries.orEmpty "attributes" c.categories).asFields = .ok entries ∧
      Entries.Related (fun _ before after => stampCategory c.extension before = .ok after) entries
        categories ∧
      stamped = { c with
        categories := Entries.put "attributes" (.record categories) c.categories
        classes := Entries.mapValues (stampFields c.extension) c.classes
        classPatches := Entries.mapValues (stampFields c.extension) c.classPatches
        objects := Entries.mapValues (stampFields c.extension) c.objects
        objectPatches := Entries.mapValues (stampFields c.extension) c.objectPatches
        profiles := Entries.mapValues (stampFields c.extension) c.profiles
        dictionary :=
          Entries.put "types" (.record (Entries.put "attributes" typeAttributes types))
            (Entries.put "attributes" attributes c.dictionary) } := by
  obtain ⟨entries, openedCategories, ran⟩ := bind_eq_ok.mp ran
  obtain ⟨categories, stampedCategories, ran⟩ := bind_eq_ok.mp ran
  obtain ⟨types, opened, ran⟩ := bind_eq_ok.mp ran
  obtain ⟨attributes, stampedAttributes, ran⟩ := bind_eq_ok.mp ran
  obtain ⟨typeAttributes, stampedTypes, ran⟩ := bind_eq_ok.mp ran
  exact ⟨types, attributes, typeAttributes, entries, categories, opened, stampedAttributes,
    stampedTypes, openedCategories, Entries.mapM_eq_ok.mp stampedCategories, (pure_eq_ok.mp ran).symm⟩

private theorem clearOf_stamped {stamped : Contribution}
    (foreign : Scope.owns scope (c.extension.name ++ "/") = false) (clear : c.ClearOf scope)
    (ran : c.stamped = .ok stamped) : stamped.ClearOf scope := by
  obtain ⟨types, attributes, typeAttributes, _, _, opened, inAttributes, inTypes, _, _, rfl⟩ :=
    stamped_ok ran
  have clearTypes := (clear.dictionary.orEmpty_clear "types").asFields opened
  have attributesClear := clear_stampSection foreign (clear.dictionary.orEmpty_clear _) inAttributes
  have typesClear := clear_stampSection foreign (clearTypes.orEmpty_clear _) inTypes
  exact {
    dictionary := (clear.dictionary.put (clearField_of_key (by decide) _) attributesClear).put_record _
      (clearTypes.put (clearField_of_key (by decide) _) typesClear)
    classes := clearEach_stamped foreign clear.classes
    classPatches := clearEach_stamped foreign clear.classPatches
    objects := clearEach_stamped foreign clear.objects
    objectPatches := clearEach_stamped foreign clear.objectPatches
    profiles := clearEach_stamped foreign clear.profiles }

/-! ### References to profiles written out -/

private theorem clear_profileReference {profile result : Value} (clear : Clear scope profile)
    (ran : profileReference c profile = .ok result) : Clear scope result := by
  unfold profileReference at ran
  obtain ⟨_, _, ran⟩ := bind_eq_ok.mp ran
  split at ran
  · exact pure_eq_ok.mp ran ▸ clear
  · obtain ⟨_, _, ran⟩ := bind_eq_ok.mp ran
    split at ran
    · exact pure_eq_ok.mp ran ▸ clear_of_not_object rfl
    · exact pure_eq_ok.mp ran ▸ clear

theorem writeOutAttribute_ok {value result : Value} (ran : writeOutAttribute c value = .ok result) :
    result = value ∨ ∃ mark fields profile written, value = .object mark fields ∧
      Entries.get? "profile" fields = some profile ∧ profileReference c profile = .ok written ∧
      result = .object mark (Entries.put "profile" written fields) := by
  cases value with
  | object mark fields =>
      unfold writeOutAttribute at ran
      dsimp only at ran
      split at ran
      · rename_i profile found
        split at ran
        · obtain ⟨written, refers, ran⟩ := bind_eq_ok.mp ran
          exact Or.inr ⟨mark, fields, profile, written, rfl, found, refers, (pure_eq_ok.mp ran).symm⟩
        · exact Or.inl (pure_eq_ok.mp ran).symm
      · exact Or.inl (pure_eq_ok.mp ran).symm
  | null | bool _ | int _ | float _ | text _ | array _ => exact Or.inl (Except.ok.inj ran).symm

theorem writeOutItem_ok {item result : Fields} (ran : writeOutItem c item = .ok result) :
    ∃ listed, (listed = item ∨ ∃ written, listed = Entries.put "profiles" (.array written) item) ∧
      (result = listed ∧ Entries.attributes listed = [] ∨
        ∃ attributes fields written, Entries.get? "attributes" listed = some attributes ∧
        attributes.asFields = .ok fields ∧
        (fields.mapM fun entry => do return (entry.1, ← writeOutAttribute c entry.2)) = .ok written ∧
        result = Entries.put "attributes" (.record written) listed) := by
  unfold writeOutItem at ran
  extract_lets last at ran
  have ended {listed : Fields} (ran : last listed = .ok result) :
      result = listed ∧ Entries.attributes listed = [] ∨
      ∃ attributes fields written, Entries.get? "attributes" listed = some attributes ∧
        attributes.asFields = .ok fields ∧
        (fields.mapM fun entry => do return (entry.1, ← writeOutAttribute c entry.2)) = .ok written ∧
        result = Entries.put "attributes" (.record written) listed := by
    unfold last at ran
    split at ran
    · rename_i attributes found
      split at ran
      · obtain ⟨fields, opened, ran⟩ := bind_eq_ok.mp ran
        obtain ⟨written, each, ran⟩ := bind_eq_ok.mp ran
        exact Or.inr ⟨attributes, fields, written, found, opened, each, (pure_eq_ok.mp ran).symm⟩
      · rename_i empty
        refine Or.inl ⟨(pure_eq_ok.mp ran).symm, ?_⟩
        rw [Entries.attributes, found]
        cases attributes with
        | object mark fields =>
            cases fields with
            | nil => rfl
            | cons head rest => cases empty rfl
        | null | bool _ | int _ | float _ | text _ | array _ => rfl
    · rename_i absent
      refine Or.inl ⟨(pure_eq_ok.mp ran).symm, ?_⟩
      rw [Entries.attributes, absent]
  split at ran
  · split at ran
    · obtain ⟨_, _, ran⟩ := bind_eq_ok.mp ran
      obtain ⟨written, _, ran⟩ := bind_eq_ok.mp ran
      exact ⟨_, Or.inr ⟨written, rfl⟩, ended ran⟩
    · exact ⟨_, Or.inl rfl, ended ran⟩
  · exact ⟨_, Or.inl rfl, ended ran⟩

private theorem clear_writeOutItem {item result : Fields} (clear : ClearFields scope item)
    (ran : writeOutItem c item = .ok result) : ClearFields scope result := by
  obtain ⟨listed, shape, ended⟩ := writeOutItem_ok ran
  have clearListed : ClearFields scope listed := by
    rcases shape with rfl | ⟨written, rfl⟩
    · exact clear
    · exact clear.put (clearField_of_key (by decide) _) (clear_of_not_object rfl)
  rcases ended with ⟨rfl, _⟩ | ⟨attributes, fields, written, found, opened, each, rfl⟩
  · exact clearListed
  · have inside := (clearListed.of_get? found).2.asFields opened
    refine clearListed.put_record _ (clearFields_of_mapM each fun entry member result treated => ?_)
    obtain ⟨field, value⟩ := clearFields_iff.mp inside entry member
    rcases writeOutAttribute_ok treated with rfl | ⟨mark, own, profile, reference, shape, given, refers, rfl⟩
    · exact ⟨field, value⟩
    · rw [shape, clear_object] at value
      exact ⟨clearField_of_object rfl, clear_object.mpr (value.put (clearField_of_key (by decide) _)
        (clear_profileReference (value.of_get? given).2 refers))⟩

private theorem clearEach_writeOut {items results : Entries Fields} (clear : ClearEach scope items)
    (ran : writeOut c items = .ok results) : ClearEach scope results := by
  intro entry member
  obtain ⟨before, known, treated⟩ := (Entries.mapM_eq_ok.mp ran).mem_right member
  exact clear_writeOutItem (clear _ known) treated

/-! ### Prepared -/

theorem prepare_ok {prepared : Contribution} (ran : (Compilation.prepare c).Yields prepared) :
    ∃ stamped classes classPatches objects objectPatches, c.stamped = .ok stamped ∧
      writeOut stamped stamped.classes = .ok classes ∧
      writeOut stamped stamped.classPatches = .ok classPatches ∧
      writeOut stamped stamped.objects = .ok objects ∧
      writeOut stamped stamped.objectPatches = .ok objectPatches ∧
      prepared = { stamped with classes, classPatches, objects, objectPatches } := by
  unfold Compilation.prepare at ran
  obtain ⟨stamped, stamps, ran⟩ := Act.yields_bind ran
  unfold withScopedProfiles at ran
  obtain ⟨classes, inClasses, ran⟩ := Act.yields_bind ran
  obtain ⟨classPatches, inClassPatches, ran⟩ := Act.yields_bind ran
  obtain ⟨objects, inObjects, ran⟩ := Act.yields_bind ran
  obtain ⟨objectPatches, inObjectPatches, ran⟩ := Act.yields_bind ran
  obtain ⟨_, _, ran⟩ := Act.yields_bind ran
  exact ⟨stamped, classes, classPatches, objects, objectPatches, Act.yields_lift.mp stamps,
    Act.yields_lift.mp inClasses, Act.yields_lift.mp inClassPatches, Act.yields_lift.mp inObjects,
    Act.yields_lift.mp inObjectPatches, (Act.yields_pure.mp ran).symm⟩

theorem agree_prepare (c : Contribution) :
    Act.Agree (Compilation.prepare c) (Compilation.prepare c) := by
  intro first second one two
  obtain ⟨stamped, _, _, _, _, stamps, classes, classPatches, objects, objectPatches, rfl⟩ :=
    prepare_ok one
  obtain ⟨other, _, _, _, _, stamps', classes', classPatches', objects', objectPatches', rfl⟩ :=
    prepare_ok two
  rw [stamps, Except.ok.injEq] at stamps'
  subst stamps'
  rw [classes, Except.ok.injEq] at classes'
  rw [classPatches, Except.ok.injEq] at classPatches'
  rw [objects, Except.ok.injEq] at objects'
  rw [objectPatches, Except.ok.injEq] at objectPatches'
  rw [classes', classPatches', objects', objectPatches']

theorem extension_prepare {prepared : Contribution} (ran : (Compilation.prepare c).Yields prepared) :
    prepared.extension = c.extension := by
  obtain ⟨stamped, _, _, _, _, stamps, _, _, _, _, rfl⟩ := prepare_ok ran
  obtain ⟨_, _, _, _, _, _, _, _, _, _, rfl⟩ := stamped_ok stamps
  rfl

theorem clearOf_prepare {prepared : Contribution}
    (foreign : Scope.owns scope (c.extension.name ++ "/") = false) (clear : c.ClearOf scope)
    (ran : (Compilation.prepare c).Yields prepared) : prepared.ClearOf scope := by
  obtain ⟨stamped, _, _, _, _, stamps, classes, classPatches, objects, objectPatches, rfl⟩ :=
    prepare_ok ran
  have stampedClear := clearOf_stamped foreign clear stamps
  exact {
    dictionary := stampedClear.dictionary
    profiles := stampedClear.profiles
    classes := clearEach_writeOut stampedClear.classes classes
    classPatches := clearEach_writeOut stampedClear.classPatches classPatches
    objects := clearEach_writeOut stampedClear.objects objects
    objectPatches := clearEach_writeOut stampedClear.objectPatches objectPatches }

/-! ### Contributions that only add items -/

/-- A contribution without patches and without a dictionary, none of whose items marks anything as
observable. -/
structure Additive (c : Contribution) : Prop where
  dictionary : c.dictionary = []
  classPatches : c.classPatches = []
  objectPatches : c.objectPatches = []
  classes : ∀ entry ∈ c.classes, Draft.Unmarked entry.2
  objects : ∀ entry ∈ c.objects, Draft.Unmarked entry.2

instance : DecidablePred Additive := fun c =>
  decidable_of_iff (c.dictionary = [] ∧ c.classPatches = [] ∧ c.objectPatches = [] ∧
      (∀ entry ∈ c.classes, Draft.Unmarked entry.2) ∧ ∀ entry ∈ c.objects, Draft.Unmarked entry.2)
    ⟨fun ⟨dictionary, classPatches, objectPatches, classes, objects⟩ =>
      { dictionary, classPatches, objectPatches, classes, objects },
    fun additive => ⟨additive.dictionary, additive.classPatches, additive.objectPatches,
      additive.classes, additive.objects⟩⟩

/-- An item that has an owner and marks nothing as observable. -/
def Inert (item : Fields) : Prop := Entries.has extensionKey item = true ∧ Draft.Unmarked item

def emptyDictionary : Fields :=
  [("attributes", .record []), ("types", .record [("attributes", .record [])])]

/-- What being prepared leaves of a contribution that only adds items. -/
structure Addition (c : Contribution) : Prop where
  dictionary : c.dictionary = emptyDictionary
  classPatches : c.classPatches = []
  objectPatches : c.objectPatches = []
  classes : ∀ entry ∈ c.classes, Inert entry.2
  objects : ∀ entry ∈ c.objects, Inert entry.2

private theorem inert_stampFields {item : Fields} (unmarked : Draft.Unmarked item) :
    Inert (stampFields e item) := by
  obtain ⟨unseen, pathless, attributes⟩ := unmarked
  refine ⟨?_, ?_, ?_, ?_⟩
  · rw [stampFields, Entries.has, Entries.get?_put, if_neg (by decide), Entries.get?_put_self]
    rfl
  · rw [stampFields, Entries.has, Entries.get?_put, if_neg (by decide), Entries.get?_put,
      if_neg (by decide)]
    exact unseen
  · rw [stampFields, Entries.has, Entries.get?_put, if_neg (by decide), Entries.get?_put,
      if_neg (by decide)]
    exact pathless
  · rw [stampFields, Entries.attributes_put_of_ne (by decide), Entries.attributes_put_of_ne (by decide)]
    exact attributes

private theorem inert_writeOutItem {item result : Fields} (inert : Inert item)
    (ran : writeOutItem c item = .ok result) : Inert result := by
  obtain ⟨listed, shape, ended⟩ := writeOutItem_ok ran
  have listedInert : Inert listed := by
    rcases shape with rfl | ⟨written, rfl⟩
    · exact inert
    · unfold Inert Draft.Unmarked Entries.has at inert ⊢
      rw [Entries.get?_put, if_neg (by decide), Entries.get?_put, if_neg (by decide), Entries.get?_put,
        if_neg (by decide), Entries.attributes_put_of_ne (by decide)]
      exact inert
  rcases ended with ⟨rfl, _⟩ | ⟨attributes, fields, written, found, opened, each, rfl⟩
  · exact listedInert
  · obtain ⟨owned, unseen, pathless, unmarked⟩ := listedInert
    obtain ⟨mark, rfl⟩ := inner_of_asFields opened
    have own : Entries.attributes listed = fields := by rw [Entries.attributes, found]
    unfold Inert Draft.Unmarked Entries.has at *
    rw [Entries.get?_put, if_neg (by decide), Entries.get?_put, if_neg (by decide), Entries.get?_put,
      if_neg (by decide), Entries.attributes_put_record]
    refine ⟨owned, unseen, pathless, fun entry member mark field shape => ?_⟩
    obtain ⟨before, known, treated⟩ := (Entries.mapM_eq_ok.mp each).mem_right member
    rcases writeOutAttribute_ok treated with same | ⟨_, own', _, _, before', _, _, same⟩
    · exact unmarked _ (own ▸ known) mark field (same ▸ shape)
    · rw [shape, Value.object.injEq] at same
      rw [same.2, Entries.get?_put, if_neg (by decide)]
      exact unmarked _ (own ▸ known) _ own' before'

private theorem inert_prepared {stamped : Contribution} {items results : Entries Fields}
    (unmarked : ∀ entry ∈ items, Draft.Unmarked entry.2)
    (ran : writeOut stamped (Entries.mapValues (stampFields e) items) = .ok results) :
    ∀ entry ∈ results, Inert entry.2 := by
  intro entry member
  obtain ⟨before, known, treated⟩ := (Entries.mapM_eq_ok.mp ran).mem_right member
  obtain ⟨origin, present, same⟩ := List.mem_map.mp known
  rw [Prod.mk.injEq] at same
  exact inert_writeOutItem (same.2 ▸ inert_stampFields (unmarked origin present)) treated

theorem addition_of_prepare {prepared : Contribution} (additive : c.Additive)
    (ran : (Compilation.prepare c).Yields prepared) : prepared.Addition := by
  obtain ⟨stamped, _, _, _, _, stamps, classes, classPatches, objects, objectPatches, rfl⟩ :=
    prepare_ok ran
  obtain ⟨types, attributes, typeAttributes, _, _, opened, inAttributes, inTypes, _, _, rfl⟩ :=
    stamped_ok stamps
  dsimp only at classPatches objectPatches
  rw [additive.classPatches] at classPatches
  rw [additive.objectPatches] at objectPatches
  rw [additive.dictionary] at opened inAttributes
  cases opened
  cases inAttributes
  cases inTypes
  exact {
    dictionary := by rw [additive.dictionary]; rfl
    classPatches := (Except.ok.inj classPatches).symm
    objectPatches := (Except.ok.inj objectPatches).symm
    classes := inert_prepared additive.classes classes
    objects := inert_prepared additive.objects objects }

end Contribution

end EventSchema
