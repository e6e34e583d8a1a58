import EventSchema.Proofs.Graph.ClassUids
import EventSchema.Proofs.Graph.Finished

/-!
The categories of classes.

A class without a category of its own inherits the name that its parent gives, and the name is looked up
anew for each of them: first in the extension of that class, and then among the categories of the base
schema. So a class has the category of its parent just when the name means the same to both.
-/

set_option autoImplicit false

namespace EventSchema

open Value

namespace Scope

private theorem findIn_orNull (container name : Value) (key : Text) (fields : Fields) :
    findIn container name (some (Entries.orNull key fields)) = findIn container name (Entries.get? key fields) := by
  unfold findIn findBy Entries.orNull Entries.getOr
  cases Entries.get? key fields with
  | none => rfl
  | some scope => rfl

end Scope

/-! ### The category of a class -/

/-- The category that a name means in an extension: its key and what is known of it, if that is anything. -/
def Definitions.categoryFor (d : Definitions) (name extension : Value) : Except Fault (Option (Value × Value)) := do
  let categories ← d.listed
  match ← Scope.findIn categories name (some extension) with
  | none => return none
  | some key =>
    let category := Value.ofOption (← key.lookup? (← categories.asFields))
    return if category.truthy then some (key, category) else none

def Entity.Categorized (entity : Entity) (flat : Fields) : Option (Value × Value) → Prop
  | some (key, category) => entity.category = key ∧
      entity.categoryUid = Entries.getOr "uid" category.inner (.int 0) ∧
      entity.categoryName = Entries.orNull "caption" category.inner
  | none => entity.category = Entries.orNull "category" flat ∧
      entity.categoryUid = (if (Entries.orNull "category" flat).equals (.text "other") then .int 0
        else Entries.orNull "category_uid" flat) ∧
      entity.categoryName = Entries.orNull "category_name" flat

structure Entity.SameCategory (entity other : Entity) : Prop where
  category : entity.category = other.category
  uid : entity.categoryUid = other.categoryUid
  name : entity.categoryName = other.categoryName

namespace Draft

private theorem identify_category {draft : Draft} {key : Text} {item result : Fields}
    (ran : (identify draft key item).Yields result) :
    ∃ found, categoryOf draft item = .ok found ∧
      (∀ name category, found = some (name, category) → Entries.orNull "category" result = name ∧
        Entries.orNull "category_uid" result = Entries.getOr "uid" category.inner (.int 0) ∧
        Entries.orNull "category_name" result = Entries.orNull "caption" category.inner) ∧
      (found = none → Entries.orNull "category" result = Entries.orNull "category" item ∧
        Entries.orNull "category_uid" result =
          (if (Entries.orNull "category" item).equals (.text "other") then .int 0
            else Entries.orNull "category_uid" item) ∧
        Entries.orNull "category_name" result = Entries.orNull "category_name" item) := by
  obtain ⟨category, whole, number, own, outer, uid, attributes, known, origin, _, _, _, _, written⟩ :=
    identify_steps ran
  have apart {field : Text} (other : field ≠ "attributes") :
      Entries.get? field (Entries.putNew "attributes" (.record []) item) = Entries.get? field item := by
    rw [Entries.get?_putNew, if_neg fun both => other both.1]
  rw [categoryOf_congr (apart (by decide)) (apart (by decide))] at known
  refine ⟨category, known, ?_, ?_⟩
  · rintro name value rfl
    rcases origin with ⟨impossible, _⟩ | ⟨_, _, fields, same, opened, rfl, rfl⟩
    · cases impossible
    · cases same
      obtain ⟨mark, rfl⟩ := Value.inner_of_asFields opened
      rcases written with ⟨_, rfl⟩ | ⟨impossible, _⟩
      · refine ⟨?_, ?_, ?_⟩
        · rw [Entries.orNull_put_of_ne (by decide), Entries.orNull_put_of_ne (by decide),
            Entries.orNull_put_of_ne (by decide), Entries.orNull_put_of_ne (by decide), Entries.orNull_put_self]
        · rw [Entries.orNull_put_of_ne (by decide), Entries.orNull_put_self, Value.inner]
        · rw [Entries.orNull_put_of_ne (by decide), Entries.orNull_put_of_ne (by decide),
            Entries.orNull_put_of_ne (by decide), Entries.orNull_put_self, Value.inner]
      · cases impossible
  · rintro rfl
    rcases origin with ⟨_, _, rfl⟩ | ⟨_, _, _, impossible, _⟩
    · have kept {field : Text} (other : field ≠ "attributes") : Entries.orNull field
          (Entries.putNew "attributes" (.record []) item) = Entries.orNull field item :=
        Entries.orNull_congr (apart other)
      rcases written with ⟨impossible, _⟩ | ⟨_, ⟨known, rfl⟩ | ⟨other, rfl⟩⟩
      · exact absurd rfl impossible
      · rw [if_neg known, Entries.orNull_put_of_ne (by decide), Entries.orNull_put_of_ne (by decide),
          Entries.orNull_put_of_ne (by decide), Entries.orNull_put_of_ne (by decide),
          Entries.orNull_put_of_ne (by decide), Entries.orNull_put_of_ne (by decide)]
        exact ⟨kept (by decide), kept (by decide), kept (by decide)⟩
      · rw [if_pos other, Entries.orNull_put_self, Entries.orNull_put_of_ne (by decide),
          Entries.orNull_put_of_ne (by decide), Entries.orNull_put_of_ne (by decide),
          Entries.orNull_put_of_ne (by decide), Entries.orNull_put_of_ne (by decide),
          Entries.orNull_put_of_ne (by decide)]
        exact ⟨kept (by decide), rfl, kept (by decide)⟩
    · cases impossible

end Draft

namespace Stages

variable {d : Definitions} {graph : Graph} (stages : Stages d graph)

include stages in
theorem categorized {key : Text} {entity : Entity} (found : Entries.get? key graph.classes = some entity) :
    ∃ flat category, Lineage.Flat .eventClass d.classes.inner key flat ∧
      d.categoryFor (Entries.orNull "category" flat) entity.extension = .ok category ∧
      entity.Categorized flat category := by
  obtain ⟨enabled, item, dated, required, result, _, held, passes, reads⟩ := stages.passes_class found
  obtain ⟨flat, identified, computed, identifying, _, frame⟩ := stages.identified_class held
  obtain ⟨category, looked, known, unknown⟩ := Draft.identify_category identifying
  obtain ⟨_, _, _, beside, _⟩ := passes.steps
  obtain ⟨_, sameBut⟩ := Draft.identify_ok identifying
  obtain ⟨extension, _, name, uid, caption⟩ := identity_of_ofFields reads
  have kept {field : Text} (free : field ∉ (["attributes", "profiles"] : List Text)) :
      Entries.orNull field result = Entries.orNull field identified :=
    Entries.orNull_congr ((beside field free).trans
      (frame field fun here => free (here ▸ List.mem_cons_of_mem _ (List.mem_singleton_self _))))
  have scope : entity.extension = Entries.orNull "extension" flat := by
    rw [extension, kept (by decide), Entries.orNull_congr (sameBut "extension" (by decide))]
  have listed : d.listed = .ok stages.resolved.categories := by
    rw [stages.categories_eq.1]
    exact (Draft.ofDefinitions_ok stages.starting).1
  refine ⟨flat, category, stages.inner_rawClasses ▸ computed, ?_, ?_⟩
  · rw [Definitions.categoryFor, listed, ok_bind, scope, Scope.findIn_orNull]
    exact looked
  · rw [kept (by decide)] at name uid caption
    cases category with
    | some pair =>
        obtain ⟨first, second, third⟩ := known pair.1 pair.2 rfl
        exact ⟨name.trans first, uid.trans second, caption.trans third⟩
    | none =>
        obtain ⟨first, second, third⟩ := unknown rfl
        exact ⟨name.trans first, uid.trans second, caption.trans third⟩

end Stages

private theorem Definitions.categoryFor_ok {d : Definitions} {name scope key category : Value}
    (found : d.categoryFor name scope = .ok (some (key, category))) :
    ∃ listed categories value, d.listed = .ok listed ∧ listed.asFields = .ok categories ∧
      key.lookup? categories = .ok value ∧ category = Value.ofOption value := by
  unfold categoryFor at found
  obtain ⟨listed, opened, found⟩ := bind_eq_ok.mp found
  obtain ⟨known, asked, found⟩ := bind_eq_ok.mp found
  cases known with
  | none => cases pure_eq_ok.mp found
  | some known =>
      obtain ⟨categories, fields, found⟩ := bind_eq_ok.mp found
      obtain ⟨value, looked, found⟩ := bind_eq_ok.mp found
      have told := pure_eq_ok.mp found
      split at told
      · cases told
        exact ⟨listed, categories, value, opened, fields, looked, rfl⟩
      · cases told

/-- A key means one category, in whatever extension it was found. -/
theorem Definitions.categoryFor_unique {d : Definitions} {name scope scope' key category category' : Value}
    (found : d.categoryFor name scope = .ok (some (key, category)))
    (found' : d.categoryFor name scope' = .ok (some (key, category'))) : category = category' := by
  obtain ⟨_, _, _, opened, fields, looked, rfl⟩ := categoryFor_ok found
  obtain ⟨_, _, _, opened', fields', looked', rfl⟩ := categoryFor_ok found'
  cases opened.symm.trans opened'
  cases fields.symm.trans fields'
  cases looked.symm.trans looked'
  rfl

/-- A class without a category of its own has that of its parent exactly if the name that it inherits means
the same in both of their extensions. -/
theorem Graph.inherited_category {d : Definitions} {graph : Graph} (documents : d.Documents)
    (built : (Graph.ofDefinitions d).Yields graph) {key parent : Text} {entity above : Entity} {mark : Option Nat}
    {item : Fields} (found : Entries.get? key graph.classes = some entity)
    (shown : Entries.get? parent graph.classes = some above)
    (raw : Entries.get? key d.classes.inner = some (.object mark item))
    (fresh : Value.given (Entries.get? "_resolved" item) = false)
    (next : Lineage.findParent d.classes.inner key (.object mark item) = .ok (some parent))
    (absent : Entries.get? "category" item = none) :
    ∃ flat ancestor own theirs, Lineage.Flat .eventClass d.classes.inner key flat ∧
      Lineage.Flat .eventClass d.classes.inner parent ancestor ∧
      d.categoryFor (Entries.orNull "category" ancestor) entity.extension = .ok own ∧
      d.categoryFor (Entries.orNull "category" ancestor) above.extension = .ok theirs ∧
      entity.Categorized flat own ∧ above.Categorized ancestor theirs ∧
      (own = theirs → (own = none → Entries.get? "category_uid" item = none ∧
        Entries.get? "category_name" item = none) → entity.SameCategory above) ∧
      (own.isSome = true → theirs.isSome = true → entity.SameCategory above → own = theirs) := by
  obtain ⟨stages⟩ := exists_stages built
  obtain ⟨flat, own, computed, looked, categorized⟩ := stages.categorized found
  obtain ⟨ancestor, theirs, computed', looked', categorized'⟩ := stages.categorized shown
  have distinct : Entries.Distinct item := (keyed_object.mp (documents.classes.inner.of_get? raw)).distinct
  have below {field : Text} (free : field ∈ (["category", "category_uid", "category_name"] : List Text))
      (missing : Entries.get? field item = none) : Entries.orNull field flat = Entries.orNull field ancestor := by
    have plain : field ∉ Lineage.joinedKeys ∧ field ∉ Lineage.ownKeys ∧ field ≠ "observable_inherited?" ∧
        field ≠ "_resolved" := by
      simp only [List.mem_cons, List.not_mem_nil, or_false] at free
      rcases free with rfl | rfl | rfl <;> decide
    obtain ⟨single, inherited, other, unmarked⟩ := plain
    exact Entries.orNull_congr
      (computed.get?_below computed' raw fresh next distinct single inherited other unmarked missing)
  have name := below (by decide) absent
  refine ⟨flat, ancestor, own, theirs, computed, computed', name ▸ looked, looked', categorized, categorized', ?_, ?_⟩
  · rintro rfl silent
    cases own with
    | some pair =>
        obtain ⟨first, second, third⟩ := categorized
        obtain ⟨first', second', third'⟩ := categorized'
        exact ⟨first.trans first'.symm, second.trans second'.symm, third.trans third'.symm⟩
    | none =>
        obtain ⟨noUid, noName⟩ := silent rfl
        obtain ⟨first, second, third⟩ := categorized
        obtain ⟨first', second', third'⟩ := categorized'
        rw [name, below (by decide) noUid] at second
        exact ⟨(first.trans name).trans first'.symm, second.trans second'.symm,
          (third.trans (below (by decide) noName)).trans third'.symm⟩
  · intro some some' same
    obtain ⟨⟨one, category⟩, rfl⟩ := Option.isSome_iff_exists.mp some
    obtain ⟨⟨other, category'⟩, rfl⟩ := Option.isSome_iff_exists.mp some'
    have keys : one = other := (categorized.1.symm.trans same.category).trans categorized'.1
    subst keys
    rw [name] at looked
    rw [Definitions.categoryFor_unique looked looked']

namespace Graph

/-- A class of a category that an extension has under the same name, and two classes that extend it without a
category of their own: one in the base schema and one in the extension. -/
def homing : Definitions where
  version := .text "1.0.0"
  categories := .record [("attributes", .record [
    ("system", .record [("uid", .int 1), ("caption", .text "System")]),
    ("corp/system", .record [("uid", .int 702), ("caption", .text "Corporate")])])]
  dictionary := .record [("attributes", .record []), ("types", .record [])]
  classes := .record [
    ("base_event", .record []),
    ("file", .record [("uid", .int 1), ("category", .text "system")]),
    ("open", .record [("uid", .int 2), ("extends", .text "file")]),
    ("corp/scan", .record [("uid", .int 3), ("extends", .text "file"), ("extension", .text "corp")])]
  objects := .record []
  profiles := .record []
  extensions := []

private theorem documents_homing : homing.Documents :=
  Definitions.documents_of_written (by decide) (by decide) (by decide) (by decide) (by decide)

/-- The extension of a class and what it is told of its category. -/
def categoryOf (key : Text) (graph : Graph) : Option (Value × Value × Value × Value) :=
  (Entries.get? key graph.classes).map fun entity =>
    (entity.extension, entity.category, entity.categoryUid, entity.categoryName)

theorem inherited_category_fails_homing : ∃ graph entity above, (ofDefinitions homing).Yields graph ∧
    Entries.get? "corp/scan" graph.classes = some entity ∧ Entries.get? "file" graph.classes = some above ∧
    Lineage.findParent homing.classes.inner "corp/scan" (Entries.orNull "corp/scan" homing.classes.inner) =
      .ok (some "file") ∧ ¬entity.SameCategory above := by
  have evaluated : ((ofDefinitions homing).outcome {}).1.toOption.map (fun graph =>
      (categoryOf "corp/scan" graph, categoryOf "file" graph)) =
      some (some (.text "corp", .text "corp/system", .int 702, .text "Corporate"),
        some (.null, .text "system", .int 1, .text "System")) := by
    decide +kernel
  obtain ⟨graph, built, shown⟩ := Act.exists_of_outcome evaluated
  obtain ⟨below, above⟩ := Prod.mk.inj shown
  obtain ⟨entity, found, told⟩ := Option.map_eq_some_iff.mp below
  obtain ⟨parent, found', told'⟩ := Option.map_eq_some_iff.mp above
  refine ⟨graph, entity, parent, built, found, found', rfl, fun same => ?_⟩
  have category : entity.category = .text "corp/system" := (Prod.mk.inj (Prod.mk.inj told).2).1
  have category' : parent.category = .text "system" := (Prod.mk.inj (Prod.mk.inj told').2).1
  rw [same.category, category'] at category
  exact absurd category (by decide)

/-- The class of the base schema is of the category of its parent. -/
theorem inherited_category_homing : ∃ graph entity above, (ofDefinitions homing).Yields graph ∧
    Entries.get? "open" graph.classes = some entity ∧ Entries.get? "file" graph.classes = some above ∧
    entity.SameCategory above := by
  have evaluated : ((ofDefinitions homing).outcome {}).1.toOption.map (fun graph =>
      ((categoryOf "open" graph).map Prod.fst, (categoryOf "file" graph).map Prod.fst)) =
      some (some .null, some .null) := by
    decide +kernel
  obtain ⟨graph, built, shown⟩ := Act.exists_of_outcome evaluated
  obtain ⟨below, above⟩ := Prod.mk.inj shown
  obtain ⟨_, told, extension⟩ := Option.map_eq_some_iff.mp below
  obtain ⟨_, told', extension'⟩ := Option.map_eq_some_iff.mp above
  obtain ⟨entity, found, rfl⟩ := Option.map_eq_some_iff.mp told
  obtain ⟨parent, found', rfl⟩ := Option.map_eq_some_iff.mp told'
  obtain ⟨_, _, own, theirs, _, _, looked, looked', _, _, same, _⟩ := inherited_category documents_homing built found
    found' rfl rfl rfl rfl
  dsimp only at extension extension'
  rw [extension] at looked
  rw [extension'] at looked'
  have one : own = theirs := Except.ok.inj (looked.symm.trans looked')
  exact ⟨graph, entity, parent, built, found, found', same one fun _ => ⟨rfl, rfl⟩⟩

end Graph

end EventSchema
