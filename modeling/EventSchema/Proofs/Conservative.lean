import Mathlib.Data.List.Forall2
import EventSchema.Proofs.Compilation
import EventSchema.Proofs.Extension
import EventSchema.Proofs.Fragment
import EventSchema.Proofs.Include.Content
import EventSchema.Proofs.Sources
import EventSchema.Proofs.Value.Single

/-!
Extensions that leave a schema as it is.

An extension that only adds classes, objects, profiles and categories keeps all of them under keys of
its own scope. If nothing else refers into that scope, and nothing else reads as if it belonged to the
extension, then a compilation with the extension gives the same graph outside the scope as one
without it. Two compilations are followed side by side: they read the same base schema and the same
contributions of all other extensions, merge them into sources that differ in the items of the scope
only, and build graphs that differ in them only.

A field `extension` of a base item is all it takes for the item to read as the extension's. Then its
plain names are looked up in the scope first, and the extension changes what they mean.
-/

set_option autoImplicit false

namespace EventSchema

open Value

variable {scope : Text}

/-! ### Documents share nothing -/

/-- What annotations share lies inside the attributes, so no section of a fragment is shared. -/
theorem Fragment.single_ofFile {tree : Tree} {file : Path} {fragment : Fields}
    (ran : ofFile tree file = .ok fragment) (key : Text) : (Entries.orEmpty key fragment).Single := by
  unfold ofFile at ran
  obtain ⟨document, read, ran⟩ := bind_eq_ok.mp ran
  have rest := (written_readObject read).erase "annotations"
  have untouched : (Entries.orEmpty key (Entries.erase "annotations" document)).Single :=
    (rest.orEmpty key).single
  rcases annotate_ok ran with rfl | ⟨_, _, mark, attributes, _, found, rfl⟩
  · exact untouched
  · by_cases same : ("attributes" : Text) = key
    · subst same
      rw [Entries.orEmpty_put_self]
      intro own inner shape
      rw [← (Value.object.inj shape).1]
      exact (written_object.mp (rest.of_get? found)).1
    · rw [Entries.orEmpty_put_of_ne same]
      exact untouched

namespace Compilation

private theorem single_requiredDocument {c : Compilation} {name : Text} {document : Fields}
    (ran : (c.requiredDocument name).content = .ok document) (key : Text) :
    (Entries.orEmpty key document).Single := by
  obtain ⟨outcome, loads, ran⟩ :=
    (Act.settles_of_content c.tree ran).bind (Fragment.fixed_load _).attempt
  rw [Act.content_attempt, Except.ok.injEq, Fragment.content_load] at loads
  have ended := ran.yields
  split at ended
  · rename_i fragment
    rw [Act.yields_pure.mp ended] at loads
    obtain ⟨file, _, read⟩ := bind_eq_ok.mp loads
    exact Fragment.single_ofFile read key
  · exact absurd ended Act.not_yields_throw
  · exact absurd ended Act.not_yields_throw

/-! ### What two compilations have in common -/

/-- A base schema that refers to nothing in a scope, nor has any key of its own in it. -/
structure Sources.ClearOf (scope : Text) (base : Sources) : Prop where
  dictionary : ClearFields scope base.dictionary
  classes : ClearEach scope base.classes
  objects : ClearEach scope base.objects
  profiles : ClearEach scope base.profiles
  categoryKeys : ∀ entry ∈ Entries.attributes base.categories, Scope.owns scope entry.1 = false
  classKeys : ∀ entry ∈ base.classes, Scope.owns scope entry.1 = false
  objectKeys : ∀ entry ∈ base.objects, Scope.owns scope entry.1 = false
  profileKeys : ∀ entry ∈ base.profiles, Scope.owns scope entry.1 = false

instance (scope : Text) : DecidablePred (Sources.ClearOf scope) := fun base =>
  decidable_of_iff (ClearFields scope base.dictionary ∧ ClearEach scope base.classes ∧
      ClearEach scope base.objects ∧ ClearEach scope base.profiles ∧
      (∀ entry ∈ Entries.attributes base.categories, Scope.owns scope entry.1 = false) ∧
      (∀ entry ∈ base.classes, Scope.owns scope entry.1 = false) ∧
      (∀ entry ∈ base.objects, Scope.owns scope entry.1 = false) ∧
      ∀ entry ∈ base.profiles, Scope.owns scope entry.1 = false)
    ⟨fun ⟨dictionary, classes, objects, profiles, categoryKeys, classKeys, objectKeys, profileKeys⟩ =>
      { dictionary, classes, objects, profiles, categoryKeys, classKeys, objectKeys, profileKeys },
    fun clear => ⟨clear.dictionary, clear.classes, clear.objects, clear.profiles, clear.categoryKeys,
      clear.classKeys, clear.objectKeys, clear.profileKeys⟩⟩

/-- Nothing that the base schema and the given extensions define refers to a scope. -/
structure ClearOf (scope : Text) (c : Compilation) (extensions : List Extension) : Prop where
  base : ∀ base, c.baseSchema = .ok base → base.ClearOf scope
  contributions : ∀ e ∈ extensions, ∀ contribution, c.contribution e = .ok contribution →
    contribution.ClearOf scope

instance (scope : Text) (c : Compilation) (extensions : List Extension) :
    Decidable (c.ClearOf scope extensions) :=
  decidable_of_iff ((∀ base, c.baseSchema = .ok base → base.ClearOf scope) ∧
      ∀ e ∈ extensions, ∀ contribution, c.contribution e = .ok contribution →
        contribution.ClearOf scope)
    ⟨fun ⟨base, contributions⟩ => { base, contributions }, fun clear => ⟨clear.base, clear.contributions⟩⟩

/-- An extension that only adds classes, objects, profiles and categories. -/
def Adds (c : Compilation) (e : Extension) : Prop :=
  ∀ contribution, c.contribution e = .ok contribution → contribution.Additive

instance (c : Compilation) (e : Extension) : Decidable (c.Adds e) :=
  inferInstanceAs (Decidable (∀ contribution, c.contribution e = .ok contribution → _))

private theorem baseSchema_congr {c c' : Compilation} (tree : c'.tree = c.tree)
    (schema : c'.settings.schema = c.settings.schema)
    (duplicates : c'.settings.duplicates = c.settings.duplicates) : c'.baseSchema = c.baseSchema := by
  unfold baseSchema requiredDocument baseScan
  rw [tree, schema, duplicates]

private theorem contribution_congr {c c' : Compilation} (tree : c'.tree = c.tree)
    (schema : c'.settings.schema = c.settings.schema)
    (duplicates : c'.settings.duplicates = c.settings.duplicates) :
    c'.contribution = c.contribution := by
  funext e
  unfold contribution
  rw [tree, schema, duplicates]

private theorem parted_base {c : Compilation} {base : Sources} (reading : c.baseSchema = .ok base)
    (clear : base.ClearOf scope) : base.Parted scope base := by
  unfold baseSchema at reading
  obtain ⟨categories, readCategories, reading⟩ := bind_eq_ok.mp reading
  obtain ⟨dictionary, readDictionary, reading⟩ := bind_eq_ok.mp reading
  obtain ⟨classes, _, reading⟩ := bind_eq_ok.mp reading
  obtain ⟨objects, _, reading⟩ := bind_eq_ok.mp reading
  obtain ⟨profiles, _, reading⟩ := bind_eq_ok.mp reading
  rw [pure_eq_ok] at reading
  subst reading
  exact {
    categories := by
      have free := clear.categoryKeys
      rw [Entries.attributes_eq_inner] at free
      cases shape : Entries.orEmpty "attributes" categories with
      | object mark fields =>
          dsimp only at free
          rw [shape] at free
          exact congrArg (Value.object mark) (Entries.outside_of_free free).symm
      | null | bool _ | int _ | float _ | text _ | array _ => rfl
    singleCategories := single_requiredDocument readCategories _
    dictionary := Or.inl rfl
    singleTypes := single_requiredDocument readDictionary _
    clearDictionary := clear.dictionary
    classes := .of_free clear.classKeys clear.classes
    objects := .of_free clear.objectKeys clear.objects
    profiles := .of_free clear.profileKeys clear.profiles
    classPatches := rfl
    objectPatches := rfl
    clearClassPatches := List.forall_mem_nil _
    clearObjectPatches := List.forall_mem_nil _ }

/-! ### Two compilations side by side -/

private theorem exists_append {α β : Type} {relation : α → β → Prop} {first second : List α} {results : List β}
    (related : List.Forall₂ relation (first ++ second) results) :
    ∃ left right, results = left ++ right ∧ List.Forall₂ relation first left ∧
      List.Forall₂ relation second right :=
  ⟨results.take first.length, results.drop first.length, (List.take_append_drop _ _).symm,
    (List.forall₂_take_append _ _ _ related.flip).flip,
    (List.forall₂_drop_append _ _ _ related.flip).flip⟩

variable {c c' : Compilation} {e : Extension} {before after : List Extension} {graph other : Graph}

private theorem exists_prepared (steps : Steps c graph) (steps' : Steps c' other)
    (same : c'.contribution = c.contribution) (whole : steps.extensions = before ++ e :: after)
    (rest : steps'.extensions = before ++ after) :
    ∃ first own last, steps.prepared = first ++ own :: last ∧ steps'.prepared = first ++ last ∧
      c.Prepares e own ∧ List.Forall₂ c.Prepares (before ++ after) (first ++ last) := by
  have prepares := whole ▸ steps.prepares
  have prepares' := rest ▸ steps'.prepares
  unfold Prepares at prepares'
  rw [same] at prepares'
  obtain ⟨first, later, prepared, inBefore, inRest⟩ := exists_append prepares
  obtain ⟨own, last, ready, inAfter, rfl⟩ := List.forall₂_cons_left_iff.mp inRest
  have others := List.rel_append inBefore inAfter
  exact ⟨first, own, last, prepared, c.prepares_unique.forall₂ prepares' others, ready, others⟩

private theorem foreign_of_prepares {source : Extension} {prepared : Contribution}
    (prepares : c.Prepares source prepared) (plain : source.name.hasSlash = false)
    (different : source.name ≠ e.name)
    (clear : ∀ contribution, c.contribution source = .ok contribution → contribution.ClearOf e.name) :
    Scope.owns e.name (prepared.extension.name ++ "/") = false ∧ prepared.ClearOf e.name := by
  obtain ⟨given, read, ready⟩ := prepares
  have origin : given.extension = source := extension_contribution read
  have foreign : Scope.owns e.name (given.extension.name ++ "/") = false := by
    rw [origin]
    exact Scope.owns_of_ne plain different
  rw [Contribution.extension_prepare ready]
  exact ⟨foreign, Contribution.clearOf_prepare foreign (clear given read) ready⟩

/-- Compilations that read the same files and find the same extensions but for one that only adds
items: their graphs differ in the items of that one only. -/
theorem without_of_steps (unbraced : e.name.startsWith "\x7b" = false)
    (steps : Steps c graph) (steps' : Steps c' other) (tree : c'.tree = c.tree)
    (schema : c'.settings.schema = c.settings.schema)
    (duplicates : c'.settings.duplicates = c.settings.duplicates)
    (whole : steps.extensions = before ++ e :: after) (rest : steps'.extensions = before ++ after)
    (adds : c.Adds e) (clear : c.ClearOf e.name (before ++ after)) :
    Graph.Without e.name graph other := by
  obtain ⟨plain, distinct⟩ :=
    distinct_of_locateExtensions (Act.settles_of_content c.tree steps.locating).yields
  rw [whole] at plain distinct
  have proper : Scope.Proper e.name :=
    { plain := plain e (List.mem_append_right _ (List.mem_cons_self ..)), unbraced }
  have sameBase : steps'.base = steps.base := by
    have reading := steps'.reading
    rw [baseSchema_congr tree schema duplicates, steps.reading] at reading
    exact (Except.ok.inj reading).symm
  obtain ⟨first, own, last, prepared, prepared', ⟨contribution, read, ready⟩, inOthers⟩ :=
    exists_prepared steps steps' (contribution_congr tree schema duplicates) whole rest
  have ownExtension : own.extension = e := extension_of_prepares ⟨contribution, read, ready⟩
  have others : ∀ p ∈ first ++ last, Scope.owns own.extension.name (p.extension.name ++ "/") = false ∧
      p.ClearOf own.extension.name := by
    intro p member
    obtain ⟨source, known, prepares⟩ := exists_left_of_mem inOthers member
    have placed : source ∈ before ++ e :: after :=
      (List.Sublist.append_left (List.sublist_cons_self e after) before).subset known
    have different : source.name ≠ e.name := by
      have apart := List.pairwise_append.mp distinct
      rcases List.mem_append.mp known with earlier | later
      · exact apart.2.2 source earlier e (List.mem_cons_self ..)
      · exact ((List.pairwise_cons.mp apart.2.1).1 source later).symm
    rw [ownExtension]
    exact foreign_of_prepares prepares (plain source placed) different (clear.contributions source known)
  have merging := steps.merging
  have merging' := steps'.merging
  rw [prepared] at merging
  rw [prepared', sameBase] at merging'
  have start := parted_base steps.reading (clear.base _ steps.reading)
  rw [← ownExtension] at start proper ⊢
  have parted := start.merge proper.plain (Contribution.addition_of_prepare (adds _ read) ready) others
    merging merging'
  exact Graph.ofDefinitions_outside proper (parted.definitions steps.defining steps'.defining)
    steps.building steps'.building

end Compilation

/-! ### The graphs -/

structure Graph.SameAt (key : Text) (graph other : Graph) : Prop where
  eventClass : Entries.get? key graph.classes = Entries.get? key other.classes
  object : Entries.get? key graph.objects = Entries.get? key other.objects
  profile : Entries.get? key graph.profiles = Entries.get? key other.profiles
  category : Entries.get? key graph.categories = Entries.get? key other.categories
  dictionaryAttribute : Entries.get? key graph.dictionary.attributes = Entries.get? key other.dictionary.attributes
  dictionaryType : Entries.get? key graph.dictionary.types = Entries.get? key other.dictionary.types
  anyClass : Entries.get? key graph.allClasses = Entries.get? key other.allClasses
  anyObject : Entries.get? key graph.allObjects = Entries.get? key other.allObjects

private theorem Graph.Without.sameAt {graph other : Graph} (without : Graph.Without scope graph other)
    {key : Text} (free : Scope.owns scope key = false) : graph.SameAt key other where
  eventClass := by rw [without.classes, Entries.get?_outside _ free]
  object := by rw [without.objects, Entries.get?_outside _ free]
  profile := by rw [without.profiles, Entries.get?_outside _ free]
  category := by rw [without.categories, Entries.get?_outside _ free]
  dictionaryAttribute := by rw [without.attributes]
  dictionaryType := by rw [without.types]
  anyClass := by rw [without.allClasses, Entries.get?_outside _ free]
  anyObject := by rw [without.allObjects, Entries.get?_outside _ free]

namespace Settings

/-- An extension that only adds items leaves everything outside its scope as it is without it, if
nothing else in the schema refers to the scope or reads as if it belonged to the extension. That is so
if no text begins with the scope and no field `extension` names the extension. -/
theorem compile_conservative {s : Settings} {paths : List Path} {tree : Tree} {e : Extension}
    {before after : List Extension} {graph other : Graph}
    (whole : (s.compile tree).Yields graph)
    (rest : ({ s with extensionPaths := paths }.compile tree).Yields other)
    (found : (s.compilation tree).found = .ok (before ++ e :: after))
    (others : ({ s with extensionPaths := paths }.compilation tree).found = .ok (before ++ after))
    (adds : (s.compilation tree).Adds e)
    (clear : (s.compilation tree).ClearOf e.name (before ++ after))
    (unbraced : e.name.startsWith "\x7b" = false) :
    ∀ key, Scope.owns e.name key = false → graph.SameAt key other := by
  obtain ⟨steps⟩ := exists_steps whole
  obtain ⟨steps'⟩ := exists_steps rest
  have extensions := Except.ok.inj (steps.found_eq.symm.trans found)
  have extensions' := Except.ok.inj (steps'.found_eq.symm.trans others)
  have without := Compilation.without_of_steps unbraced steps steps' rfl rfl rfl extensions
    extensions' adds clear
  exact fun key free => without.sameAt free

/-! ### One extension with an object of its own -/

def leafSchema (node leaf : Fields) : List (List Text × Fields) := [
  (["schema", "categories.json"], [("attributes", .record [])]),
  (["schema", "dictionary.json"], [("attributes", .record [
    ("size", .record [("type", .text "integer_t")]), ("hint", .record [("type", .text "string_t")])])]),
  (["schema", "events", "base_event.json"], [("name", .text "base_event")]),
  (["schema", "objects", "node.json"], ("name", .text "node") :: node),
  (["schema", "objects", "leaves", "leaf.json"],
    ("name", .text "leaf") :: ("extends", .text "node") :: leaf)]

def nodeExtension (name : Text) : List (List Text × Fields) := [
  (["corp", "extension.json"], [("name", .text name), ("uid", .int 7)]),
  (["corp", "objects", "node.json"],
    [("name", .text "node"), ("attributes", .record [("hint", .record [])])])]

def corp (name : Text) : Extension where
  name
  uid := 7
  path := ("/corp" : Text)
  version := .text "0.0.0"
  caption := .null
  description := .null
  isPlatform := false

def leafTree (name : Text) (node leaf : Fields) : Tree :=
  .ofDocuments (leafSchema node leaf ++ nodeExtension name)

def withCorp : Settings where
  schema := ("/schema" : Text)
  extensionPaths := [("/corp" : Text)]

def withoutCorp : Settings := { withCorp with extensionPaths := [] }

/-- The attributes of the leaf with the objects that they refer to. -/
def leafTypes (graph : Graph) : Option Fields :=
  (Entries.get? "leaf" graph.objects).map fun leaf =>
    leaf.attributes.map fun entry => (entry.1, entry.2.objectType)

def sizedNode : Fields := [("attributes", .record [("size", .record [])])]

/-- The leaf extends the `node` of the base schema, whether the extension has one of its own or not. -/
theorem compile_conservative_leaf :
    ∃ graph other, (withCorp.compile (leafTree "corp" sizedNode [])).Yields graph ∧
      (withoutCorp.compile (leafTree "corp" sizedNode [])).Yields other ∧
      (Entries.get? "corp/node" graph.objects).isSome = true ∧
      leafTypes graph = some ([("size", .null)] : Fields) ∧
      ∀ key, Scope.owns "corp" key = false → graph.SameAt key other := by
  have evaluated : ((withCorp.compile (leafTree "corp" sizedNode [])).outcome {}).1.toOption.map
      (fun graph => ((Entries.get? "corp/node" graph.objects).isSome, leafTypes graph)) =
        some (true, some ([("size", .null)] : Fields)) := by
    decide +kernel
  have evaluated' : ((withoutCorp.compile (leafTree "corp" sizedNode [])).outcome {}).1.toOption.map
      leafTypes = some (some ([("size", .null)] : Fields)) := by
    decide +kernel
  obtain ⟨graph, whole, shown⟩ := Act.exists_of_outcome evaluated
  obtain ⟨other, rest, _⟩ := Act.exists_of_outcome evaluated'
  obtain ⟨added, types⟩ := Prod.mk.inj shown
  have found : (withCorp.compilation (leafTree "corp" sizedNode [])).found =
      .ok ([] ++ corp "corp" :: []) :=
    toOption_eq_some.mp (by decide +kernel)
  have others : (withoutCorp.compilation (leafTree "corp" sizedNode [])).found = .ok ([] ++ []) :=
    toOption_eq_some.mp (by decide +kernel)
  exact ⟨graph, other, whole, rest, added, types,
    compile_conservative whole rest found others (by decide +kernel) (by decide +kernel)
      (by decide +kernel)⟩

/-- The extension only adds items, and no document of the base schema has a text with its scope, but
the leaf is not the same with it and without it. -/
def Interferes (name : Text) (node leaf : Fields) : Prop :=
  (∀ document ∈ leafSchema node leaf,
    (Json.write .line (.record document.2)).contains (name ++ "/") = false) ∧
  (withCorp.compilation (leafTree name node leaf)).found = .ok [corp name] ∧
  (withoutCorp.compilation (leafTree name node leaf)).found = .ok [] ∧
  (withCorp.compilation (leafTree name node leaf)).Adds (corp name) ∧
  Scope.owns name "leaf" = false ∧
  ∃ graph other, (withCorp.compile (leafTree name node leaf)).Yields graph ∧
    (withoutCorp.compile (leafTree name node leaf)).Yields other ∧ ¬graph.SameAt "leaf" other

private theorem not_sameAt_leaf {name : Text} {node leaf : Fields} {types types' : Option Fields}
    (evaluated : ((withCorp.compile (leafTree name node leaf)).outcome {}).1.toOption.map leafTypes =
      some types)
    (evaluated' : ((withoutCorp.compile (leafTree name node leaf)).outcome {}).1.toOption.map leafTypes =
      some types') (different : types ≠ types') :
    ∃ graph other, (withCorp.compile (leafTree name node leaf)).Yields graph ∧
      (withoutCorp.compile (leafTree name node leaf)).Yields other ∧ ¬graph.SameAt "leaf" other := by
  obtain ⟨graph, whole, shown⟩ := Act.exists_of_outcome evaluated
  obtain ⟨other, rest, shown'⟩ := Act.exists_of_outcome evaluated'
  refine ⟨graph, other, whole, rest, fun same => different ?_⟩
  rw [← shown, ← shown', leafTypes, leafTypes, same.object]

def bracedName : Text := "\x7b'a': 1, 'b': 2\x7d"

def ownedNode : Fields := [("attributes", .record [("hint", .record [("_source", .text ∅),
  ("type", .text "object_t"), ("object_type", .text "node"),
  ("extension", .record [("a", .int 1)])])])]

def ownedLeaf : Fields :=
  [("attributes", .record [("hint", .record [("extension", .record [("b", .int 2)])])])]

/-- A leaf that reads as an item of the extension extends the `node` of the extension where there is
one. Objects of which none reads as the extension do so once they are merged. -/
theorem compile_not_conservative :
    Interferes "corp" sizedNode [("extension", .text "corp")] ∧
      Interferes bracedName ownedNode ownedLeaf ∧
      (withCorp.compilation (leafTree bracedName ownedNode ownedLeaf)).ClearOf bracedName [] := by
  have claimed : ((withCorp.compile (leafTree "corp" sizedNode
      [("extension", .text "corp")])).outcome {}).1.toOption.map leafTypes =
        some (some ([("hint", .null)] : Fields)) := by
    decide +kernel
  have unclaimed : ((withoutCorp.compile (leafTree "corp" sizedNode
      [("extension", .text "corp")])).outcome {}).1.toOption.map leafTypes =
        some (some ([("size", .null)] : Fields)) := by
    decide +kernel
  have owned : ((withCorp.compile (leafTree bracedName ownedNode
      ownedLeaf)).outcome {}).1.toOption.map leafTypes =
        some (some ([("hint", .text (bracedName ++ "/node"))] : Fields)) := by
    decide +kernel
  have unowned : ((withoutCorp.compile (leafTree bracedName ownedNode
      ownedLeaf)).outcome {}).1.toOption.map leafTypes =
        some (some ([("hint", .text "node")] : Fields)) := by
    decide +kernel
  exact ⟨⟨by decide +kernel, toOption_eq_some.mp (by decide +kernel),
      toOption_eq_some.mp (by decide +kernel), by decide +kernel, by decide +kernel,
      not_sameAt_leaf claimed unclaimed (by decide)⟩,
    ⟨by decide +kernel, toOption_eq_some.mp (by decide +kernel),
      toOption_eq_some.mp (by decide +kernel), by decide +kernel, by decide +kernel,
      not_sameAt_leaf owned unowned (by decide)⟩,
    by decide +kernel⟩

end Settings

end EventSchema
