import EventSchema.Proofs.Documents
import EventSchema.Proofs.Graph.ClassUids
import EventSchema.Proofs.Merging

/-!
When the uids of a schema tell its classes apart.

The uid of a class has the digits of three numbers: that of the extension which scopes its category, that
of the category there, and its own. A category of an extension is scoped by that extension, any other by
the extension of the class. So a class of an extension in a category of the base schema can have the same
uid as another one in a category of the extension itself. Classes that differ in one of the three numbers
have different uids, and each is found by its own.
-/

set_option autoImplicit false

namespace EventSchema

namespace Compilation

/-! ### Classes as they are defined -/

/-- The classes that the base schema and some extensions define, those of an extension under scoped
keys. -/
def classItems (c : Compilation) (extensions : List Extension) : Except Fault (Entries Fields) := do
  let base ← c.baseSchema
  let contributions ← extensions.mapM c.contribution
  return contributions.foldl (fun items contribution =>
    addScoped contribution.extension items contribution.classes) base.classes

/-- The fields of an item that are written before the graph is built. -/
def preparedKeys : List Text := "extension" :: "extension_id" :: Patch.writtenKeys

private theorem related_withStamped (items others : Entries Fields) (contributions : List Contribution)
    (start : Entries.Related (fun _ => Entries.SameBeside preparedKeys) items others) :
    Entries.Related (fun _ => Entries.SameBeside preparedKeys)
      (contributions.foldl (fun items contribution =>
        addScoped contribution.extension items contribution.classes) items)
      (withStamped .eventClass others contributions) := by
  unfold withStamped
  induction contributions generalizing items others with
  | nil => exact start
  | cons first later ih =>
      refine ih _ _ (related_addScoped (fun _ _ _ _ held => held) start ?_)
      exact Entries.related_mapValues fun entry _ =>
        ((Entries.SameBeside.refl _ entry.2).put (by decide) _).put (by decide) _

theorem Steps.related_classes {c : Compilation} {graph : Graph} (steps : Steps c graph)
    {items : Entries Fields} (defined : c.classItems steps.extensions = .ok items) :
    ∃ classes, steps.definitions.classes = .record (Entries.mapValues Value.record classes) ∧
      Entries.Related (fun _ => Entries.SameBeside preparedKeys) items classes := by
  obtain ⟨classes, same, patched⟩ := steps.patched_items .eventClass
  have shape : c.classItems steps.extensions = .ok (steps.contributions.foldl (fun items contribution =>
      addScoped contribution.extension items contribution.classes) steps.base.classes) := by
    unfold classItems
    rw [steps.reading, ok_bind, steps.contributing]
    rfl
  cases shape.symm.trans defined
  have stamped := related_withStamped steps.base.classes _ steps.contributions
    (List.forall₂_same.mpr fun _ _ => ⟨rfl, Entries.SameBeside.refl preparedKeys _⟩)
  refine ⟨classes, same, (Entries.Related.trans stamped patched).imp ?_⟩
  rintro _ _ _ ⟨_, stamps, patches⟩
  exact stamps.trans (patches.mono fun key member =>
    List.mem_cons_of_mem _ (List.mem_cons_of_mem _ member))

/-! ### Categories -/

def HasShortUid (category : Value) : Prop :=
  match category.at_ "uid" with
  | .ok (.int n) => 0 ≤ n ∧ n < 100
  | _ => False

instance : DecidablePred HasShortUid := fun category => by
  unfold HasShortUid
  split <;> infer_instance

private theorem exists_of_hasShortUid {category : Value} (short : HasShortUid category) :
    ∃ n : Int, 0 ≤ n ∧ n < 100 ∧ category.at_ "uid" = .ok (.int n) := by
  unfold HasShortUid at short
  split at short
  · exact ⟨_, short.1, short.2, ‹_›⟩
  · cases short

private theorem counted_stampCategory {e : Extension} (positive : 1 ≤ e.uid) {category result : Value}
    (short : HasShortUid category) (ran : Contribution.stampCategory e category = .ok result) :
    Draft.Counted result := by
  obtain ⟨n, nonnegative, below, uid⟩ := exists_of_hasShortUid short
  obtain ⟨mark, fields, given, full, rfl, found, composed, rfl⟩ := Contribution.stampCategory_ok ran
  cases found.symm.trans (Draft.at_object_ok uid)
  have within : Number.below 100 (.whole n) = true := decide_eq_true below
  rw [Uid.category, Uid.asNumber_of_whole rfl, ok_bind, if_pos within,
    Uid.scope_whole (Uid.asNumber_of_whole rfl)] at composed
  cases composed
  refine ⟨e.uid * 100 + n, by omega, ?_⟩
  rw [Value.at_, Contribution.stampFields, Entries.get?_put_of_ne (by decide),
    Entries.get?_put_of_ne (by decide), Entries.get?_put_self]

structure ShortCategories (c : Compilation) (extensions : List Extension) : Prop where
  base : ∀ sources, c.baseSchema = .ok sources →
    ∀ entry ∈ Entries.attributes sources.categories, HasShortUid entry.2
  own : ∀ e ∈ extensions, 1 ≤ e.uid ∧ ∀ contribution, c.contribution e = .ok contribution →
    ∀ entry ∈ Entries.attributes contribution.categories, HasShortUid entry.2

instance (c : Compilation) : DecidablePred c.ShortCategories := fun extensions =>
  decidable_of_iff ((∀ sources, c.baseSchema = .ok sources →
      ∀ entry ∈ Entries.attributes sources.categories, HasShortUid entry.2) ∧
      ∀ e ∈ extensions, 1 ≤ e.uid ∧ ∀ contribution, c.contribution e = .ok contribution →
        ∀ entry ∈ Entries.attributes contribution.categories, HasShortUid entry.2)
    ⟨fun ⟨base, own⟩ => { base, own }, fun short => ⟨short.base, short.own⟩⟩

private theorem counted_addCategories {e : Extension} {base new result : Fields}
    (old : ∀ entry ∈ Entries.attributes base, Draft.Counted entry.2)
    (given : ∀ entry ∈ Entries.attributes new, Draft.Counted entry.2)
    (ran : addCategories e base new = .ok result) :
    ∀ entry ∈ Entries.attributes result, Draft.Counted entry.2 := by
  obtain ⟨entries, added, opened, written, rfl⟩ := addCategories_ok ran
  rw [Draft.attributes_of_ok opened] at given
  have whole : ∀ mark fields, added = .object mark fields → ∀ entry ∈ fields, Draft.Counted entry.2 := by
    refine foldlM_invariant (motive := fun value => ∀ mark fields, value = .object mark fields →
      ∀ entry ∈ fields, Draft.Counted entry.2) written ?_ ?_
    · intro mark fields shape entry member
      have opened : Entries.attributes base = fields :=
        Draft.attributes_of_ok (congrArg Value.asFields shape)
      exact old entry (opened.symm ▸ member)
    · intro state category next known counted step mark fields shape
      cases state with
      | object own before =>
          cases step
          cases shape
          intro entry member
          rcases Entries.mem_of_mem_put member with new | known'
          · exact new ▸ given category known
          · exact counted _ _ rfl entry known'
      | null | bool _ | int _ | float _ | text _ | array _ => cases step
  intro entry member
  unfold Entries.attributes at member
  rw [Entries.get?_put_self] at member
  split at member
  · rename_i mark fields shape
    exact whole mark fields (Option.some.inj shape) entry member
  · cases member

private theorem Steps.counted_categories {c : Compilation} {graph : Graph} (steps : Steps c graph)
    (short : c.ShortCategories steps.extensions) :
    ∀ entry ∈ Entries.attributes steps.sources.categories, Draft.Counted entry.2 := by
  refine Act.foldlM_keeps (motive := fun sources : Sources =>
    ∀ entry ∈ Entries.attributes sources.categories, Draft.Counted entry.2) steps.merging ?_ ?_
  · intro entry member
    obtain ⟨n, nonnegative, _, uid⟩ := exists_of_hasShortUid (short.base _ steps.reading entry member)
    exact ⟨n, nonnegative, uid⟩
  · intro s prepared next member counted adding
    obtain ⟨e, located, contribution, read, prepares⟩ := exists_left_of_mem steps.prepares member
    obtain ⟨positive, shortOwn⟩ := short.own e located
    obtain ⟨categories, _, listed, _, rfl⟩ := Sources.add_ok adding
    refine counted_addCategories counted ?_ listed
    obtain ⟨stamped, _, _, _, _, stamps, _, _, _, _, rfl⟩ := Contribution.prepare_ok prepares
    obtain ⟨_, _, _, entries, results, _, _, _, opened, each, rfl⟩ := Contribution.stamped_ok stamps
    dsimp only
    rw [Entries.attributes_put_record]
    intro entry present
    obtain ⟨origin, known, stamping⟩ := each.mem_right present
    rw [extension_contribution read] at stamping
    have member : (entry.1, origin) ∈ Entries.attributes contribution.categories := by
      rw [Draft.attributes_of_ok opened]
      exact known
    exact counted_stampCategory positive (shortOwn _ read (entry.1, origin) member) stamping

private theorem Steps.categories_counted {c : Compilation} {graph : Graph} (steps : Steps c graph)
    (short : c.ShortCategories steps.extensions) (stages : Stages steps.definitions graph) :
    ∃ mark categories, stages.start.categories = .object mark categories ∧
      ∀ entry ∈ categories, Draft.Counted entry.2 := by
  obtain ⟨_, _, _, _, same⟩ := Sources.definitions_ok steps.defining
  have counted := steps.counted_categories short
  obtain ⟨listed, _⟩ := Draft.ofDefinitions_ok stages.starting
  obtain ⟨_, _, _, _, ⟨fields, opened, _⟩, _⟩ := Graph.of_draft stages.reading
  rw [stages.categories_eq.2] at opened
  obtain ⟨mark, shape⟩ := Value.inner_of_asFields opened
  refine ⟨mark, fields, shape, ?_⟩
  have written : steps.definitions.categories = .record steps.sources.categories := by rw [same]
  unfold Definitions.listed at listed
  rw [written, shape] at listed
  obtain ⟨found, asked, listed⟩ := bind_eq_ok.mp listed
  have told : Value.orElse (Entries.get? "attributes" steps.sources.categories) (.record []) =
      .object mark fields := by
    cases asked
    exact pure_eq_ok.mp listed
  unfold Entries.attributes at counted
  cases held : Entries.get? "attributes" steps.sources.categories with
  | none =>
      rw [held] at told
      cases told
      exact List.forall_mem_nil _
  | some value =>
      rw [held, Value.orElse] at told
      rw [held] at counted
      split at told
      · rw [told] at counted
        exact counted
      · cases told
        exact List.forall_mem_nil _

/-! ### Uids of classes -/

/-- A class that sets its uid itself, or has none to take over. -/
def SetsUid (item : Fields) : Prop :=
  Entries.has "uid" item = true ∨ Value.given (Entries.get? "extends" item) = false

instance : DecidablePred SetsUid := fun item => by
  unfold SetsUid
  infer_instance

private theorem Steps.ownNumber_of_flat {c : Compilation} {graph : Graph} (steps : Steps c graph)
    (stages : Stages steps.definitions graph) {items : Entries Fields} (defined : c.classItems steps.extensions =
      .ok items)
    (sets : ∀ entry ∈ graph.classes, ∀ item, Entries.get? entry.1 items = some item → SetsUid item)
    {entry : Text × Entity} (member : entry ∈ graph.classes) {flat : Fields}
    (known : (entry.1, flat) ∈ stages.flatClasses) :
    Draft.ownNumber flat = Draft.ownNumber ((Entries.get? entry.1 items).getD []) := by
  obtain ⟨classes, shape, prepares⟩ := steps.related_classes defined
  have keyed := steps.keyed.classes
  have raw : stages.rawClasses = Entries.mapValues Value.record classes := by
    have read := stages.readClasses
    rw [shape] at read
    exact (Except.ok.inj read).symm
  rw [shape] at keyed
  obtain ⟨origin, present, computed⟩ := (Lineage.flattenAll_ok stages.flattenClasses).mem_right known
  have found := Entries.get?_of_mem (raw ▸ keyed.distinct) present
  rw [raw, Entries.get?_mapValues] at found
  obtain ⟨patched, held, rfl⟩ := Option.map_eq_some_iff.mp found
  obtain ⟨item, given, same⟩ := prepares.get?_right held
  have located : Entries.get? entry.1 stages.rawClasses = some (.object none patched) := by
    rw [raw, Entries.get?_mapValues, held]
    rfl
  have distinct : Entries.Distinct patched :=
    ((keyed.of_get? (raw ▸ located : Entries.get? entry.1
      (Entries.mapValues Value.record classes) = some (.record patched)))).distinct
  rw [given, Option.getD_some]
  refine Draft.ownNumber_congr ?_
  rcases sets entry member item given with own | alone
  · obtain ⟨uid, own⟩ := Option.isSome_iff_exists.mp own
    rw [own]
    refine computed.get?_own located distinct (by decide) (by decide) (by decide) ?_
    rw [same "uid" (by decide), own]
  · rw [computed.get?_alone located (by rw [same "extends" (by decide), alone]) (by decide),
      same "uid" (by decide)]

end Compilation

structure Graph.SeparatesClasses (items : Entries Fields) (graph : Graph) : Prop where
  sets : ∀ entry ∈ graph.classes, ∀ item, Entries.get? entry.1 items = some item →
    Compilation.SetsUid item
  whole : ∀ entry ∈ graph.classes, entry.2.extensionId.isNull = true ∨
    entry.2.extensionId.whole?.isSome = true
  apart : ∀ first ∈ graph.classes, ∀ second ∈ graph.classes,
    graph.classUid items first = graph.classUid items second → first.1 = second.1

/-- The uid of a class has the digits of its numbers. If no two classes have the same numbers, no two have
the same uid, and each class is the one that is found by its uid. -/
theorem Settings.class_uids {s : Settings} {tree : Tree} {graph : Graph} {extensions : List Extension}
    {items : Entries Fields} (compiled : (s.compile tree).Yields graph)
    (found : (s.compilation tree).found = .ok extensions)
    (defined : (s.compilation tree).classItems extensions = .ok items)
    (short : (s.compilation tree).ShortCategories extensions) (separate : graph.SeparatesClasses items) :
    (∀ entry ∈ graph.classes, entry.2.uid = .int (graph.classUid items entry).digits) ∧
    (∀ first ∈ graph.classes, ∀ second ∈ graph.classes, first.1 ≠ second.1 →
      first.2.uid ≠ second.2.uid) ∧
    ∀ entry ∈ graph.classes, graph.classOfUid? entry.2.uid = .ok (some entry.2) := by
  obtain ⟨steps⟩ := exists_steps compiled
  obtain ⟨stages⟩ := exists_stages steps.building
  cases steps.found_eq.symm.trans found
  obtain ⟨mark, categories, shape, counted⟩ := steps.categories_counted short stages
  have digits : ∀ entry ∈ graph.classes, (graph.classUid items entry).Proper ∧
      entry.2.uid = .int (graph.classUid items entry).digits := by
    intro entry member
    obtain ⟨nonnegative, flat, known, uid⟩ := stages.uid_of_class shape counted member
      ((separate.whole entry member).imp_right Option.isSome_iff_exists.mp)
    rw [steps.ownNumber_of_flat stages defined separate.sets member known] at uid
    exact ⟨ClassUid.proper_ofCategory nonnegative (Draft.ownNumber_bounds _) _, uid⟩
  have unique : ∀ first ∈ graph.classes, ∀ second ∈ graph.classes, first.2.uid = second.2.uid →
      first.1 = second.1 := by
    intro first one second two same
    obtain ⟨proper, uid⟩ := digits first one
    obtain ⟨proper', uid'⟩ := digits second two
    rw [uid, uid', Value.int.injEq, ClassUid.digits_inj proper proper'] at same
    exact separate.apart first one second two same
  have distinct : Entries.Distinct graph.classes := by
    obtain ⟨classes, raw, _⟩ := steps.related_classes defined
    have keyed := steps.keyed.classes
    have read := stages.readClasses
    rw [raw] at keyed read
    exact stages.distinct_classes (Except.ok.inj read ▸ keyed.distinct)
  refine ⟨fun entry member => (digits entry member).2, ?_, fun entry member => ?_⟩
  · exact fun first one second two different same => different (unique first one second two same)
  · exact Graph.classOfUid?_of_unique distinct (fun entry member => ⟨_, (digits entry member).2⟩) unique
      member

/-! ### Two categories with the same number -/

namespace Settings

/-- A schema with a category `system`, and an extension with a category of its own that has the same
number there. A class of the extension is in each. -/
def categoryTree (second : Int) : Tree :=
  .ofDocuments [
    (["schema", "categories.json"], [("attributes", .record [("system", .record [("uid", .int 5)])])]),
    (["schema", "dictionary.json"], [("attributes", .record [])]),
    (["schema", "events", "base_event.json"], [("name", .text "base_event")]),
    (["corp", "extension.json"], [("name", .text "corp"), ("uid", .int 7)]),
    (["corp", "categories.json"], [("attributes", .record [("local", .record [("uid", .int 5)])])]),
    (["corp", "events", "first.json"],
      [("name", .text "first"), ("uid", .int 1), ("category", .text "system")]),
    (["corp", "events", "local", "second.json"],
      [("name", .text "second"), ("uid", .int second), ("category", .text "local")])]

def categorySettings : Settings where
  schema := ("/schema" : Text)
  extensionPaths := [("/corp" : Text)]

def classUids (graph : Graph) : Entries Value :=
  graph.classes.map fun entry => (entry.1, entry.2.uid)

def categoryExtension : Extension where
  name := "corp"
  uid := 7
  path := ("/corp" : Text)
  version := .text "0.0.0"
  caption := .null
  description := .null
  isPlatform := false

instance (items : Entries Fields) : DecidablePred (Graph.SeparatesClasses items) := fun graph =>
  decidable_of_iff ((∀ entry ∈ graph.classes, ∀ item, Entries.get? entry.1 items = some item →
      Compilation.SetsUid item) ∧
      (∀ entry ∈ graph.classes, entry.2.extensionId.isNull = true ∨
        entry.2.extensionId.whole?.isSome = true) ∧
      ∀ first ∈ graph.classes, ∀ second ∈ graph.classes,
        graph.classUid items first = graph.classUid items second → first.1 = second.1)
    ⟨fun ⟨sets, whole, apart⟩ => { sets, whole, apart },
      fun separate => ⟨separate.sets, separate.whole, separate.apart⟩⟩

def categoryUids (second : Int) : Fields := [
  ("base_event", .int 0), ("corp/first", .int 705001), ("corp/second", .int (705000 + second))]

theorem class_uids_categoryTree :
    ∃ graph, (categorySettings.compile (categoryTree 2)).Yields graph ∧
      classUids graph = categoryUids 2 ∧
      ∀ entry ∈ graph.classes, graph.classOfUid? entry.2.uid = .ok (some entry.2) := by
  have found : (categorySettings.compilation (categoryTree 2)).found = .ok [categoryExtension] :=
    toOption_eq_some.mp (by decide +kernel)
  have evaluated : ((categorySettings.compile (categoryTree 2)).outcome {}).1.toOption.map (fun graph =>
      (classUids graph, decide (∀ items,
        (categorySettings.compilation (categoryTree 2)).classItems [categoryExtension] = .ok items →
          graph.SeparatesClasses items))) =
      some (categoryUids 2, true) := by
    decide +kernel
  have known : ((categorySettings.compilation (categoryTree 2)).classItems
      [categoryExtension]).toOption.isSome = true := by
    decide +kernel
  obtain ⟨graph, compiled, shown⟩ := Act.exists_of_outcome evaluated
  obtain ⟨uids, separate⟩ := Prod.mk.inj shown
  obtain ⟨items, defined⟩ := Option.isSome_iff_exists.mp known
  have defined := toOption_eq_some.mp defined
  exact ⟨graph, compiled, uids, (class_uids compiled found defined (by decide +kernel)
    (of_decide_eq_true separate items defined)).2.2⟩

/-- What is known of the classes if only those of one home in one category are compared: categories with
distinct uids, extensions too, and classes with distinct uids in each category. -/
structure SeparatesInCategories (c : Compilation) (extensions : List Extension) (items : Entries Fields)
    (graph : Graph) : Prop where
  short : c.ShortCategories extensions
  base : ∀ sources, c.baseSchema = .ok sources →
    ((Entries.attributes sources.categories).map fun entry => (entry.2.at_ "uid").toOption).Nodup
  uids : (extensions.map Extension.uid).Nodup
  own : ∀ e ∈ extensions, ∀ contribution, c.contribution e = .ok contribution →
    ((Entries.attributes contribution.categories).map fun entry => (entry.2.at_ "uid").toOption).Nodup
  sets : ∀ entry ∈ graph.classes, entry.1 ≠ "base_event" →
    ∀ item, Entries.get? entry.1 items = some item →
      ∃ n ∈ (Entries.orNull "uid" item).whole?, 1 ≤ n ∧ n ≤ 999
  apart : ∀ first ∈ graph.classes, ∀ second ∈ graph.classes,
    first.2.extension = second.2.extension → first.2.category = second.2.category →
    (Entries.get? first.1 items).map (Entries.orNull "uid") =
      (Entries.get? second.1 items).map (Entries.orNull "uid") → first.1 = second.1

instance (c : Compilation) (extensions : List Extension) (items : Entries Fields) :
    DecidablePred (SeparatesInCategories c extensions items) := fun graph =>
  decidable_of_iff (c.ShortCategories extensions ∧
      (∀ sources, c.baseSchema = .ok sources →
        ((Entries.attributes sources.categories).map fun entry => (entry.2.at_ "uid").toOption).Nodup) ∧
      (extensions.map Extension.uid).Nodup ∧
      (∀ e ∈ extensions, ∀ contribution, c.contribution e = .ok contribution →
        ((Entries.attributes contribution.categories).map fun entry =>
          (entry.2.at_ "uid").toOption).Nodup) ∧
      (∀ entry ∈ graph.classes, entry.1 ≠ "base_event" →
        ∀ item, Entries.get? entry.1 items = some item →
          ∃ n ∈ (Entries.orNull "uid" item).whole?, 1 ≤ n ∧ n ≤ 999) ∧
      ∀ first ∈ graph.classes, ∀ second ∈ graph.classes,
        first.2.extension = second.2.extension → first.2.category = second.2.category →
        (Entries.get? first.1 items).map (Entries.orNull "uid") =
          (Entries.get? second.1 items).map (Entries.orNull "uid") → first.1 = second.1)
    ⟨fun ⟨short, base, uids, own, sets, apart⟩ => { short, base, uids, own, sets, apart },
      fun all => ⟨all.short, all.base, all.uids, all.own, all.sets, all.apart⟩⟩

def foundByUid (key : Text) (graph : Graph) : Option (Text × Option Text) :=
  (Entries.get? key graph.classes).map fun entity =>
    (entity.key, (graph.classOfUid? entity.uid).toOption.join.map Entity.key)

/-- A class of an extension in a category of the base schema has the uid of one in a category of the
extension: both have the number 1, and so have no two classes of one category. The uid finds only the
second one. -/
theorem class_uids_collide :
    ∃ graph items, (categorySettings.compile (categoryTree 1)).Yields graph ∧
      (categorySettings.compilation (categoryTree 1)).found = .ok [categoryExtension] ∧
      (categorySettings.compilation (categoryTree 1)).classItems [categoryExtension] = .ok items ∧
      SeparatesInCategories (categorySettings.compilation (categoryTree 1)) [categoryExtension] items graph ∧
      classUids graph = categoryUids 1 ∧
      ¬∀ entry ∈ graph.classes, graph.classOfUid? entry.2.uid = .ok (some entry.2) := by
  have evaluated : ((categorySettings.compile (categoryTree 1)).outcome {}).1.toOption.map (fun graph =>
      (classUids graph, foundByUid "corp/first" graph, decide (∀ items,
        (categorySettings.compilation (categoryTree 1)).classItems [categoryExtension] = .ok items →
          SeparatesInCategories (categorySettings.compilation (categoryTree 1)) [categoryExtension]
            items graph))) =
      some (categoryUids 1, some (("corp/first" : Text), some ("corp/second" : Text)), true) := by
    decide +kernel
  have known : ((categorySettings.compilation (categoryTree 1)).classItems
      [categoryExtension]).toOption.isSome = true := by
    decide +kernel
  obtain ⟨graph, compiled, shown⟩ := Act.exists_of_outcome evaluated
  obtain ⟨uids, shown⟩ := Prod.mk.inj shown
  obtain ⟨second, separate⟩ := Prod.mk.inj shown
  obtain ⟨items, defined⟩ := Option.isSome_iff_exists.mp known
  have defined := toOption_eq_some.mp defined
  refine ⟨graph, items, compiled, toOption_eq_some.mp (by decide +kernel), defined,
    of_decide_eq_true separate items defined, uids, fun each => ?_⟩
  obtain ⟨first, member, same⟩ := Option.map_eq_some_iff.mp second
  obtain ⟨own, other⟩ := Prod.mk.inj same
  rw [each _ (Entries.mem_of_get? member)] at other
  have key := Option.some.inj other
  rw [own] at key
  exact absurd key (by decide)

end Settings

end EventSchema
