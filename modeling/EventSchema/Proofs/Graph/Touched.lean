import EventSchema.Proofs.Contribution.Patch
import EventSchema.Proofs.Draft.Captions
import EventSchema.Proofs.Draft.Copies
import EventSchema.Proofs.Graph.ObjectTypes
import EventSchema.Proofs.Graph.Outside
import EventSchema.Proofs.Lineage.Beside

/-!
Graphs of definitions that differ in some attributes of one object.

Where an object is defined in two ways that differ in touched attributes, and in what else a patch may
write, its other attributes come to the same in both graphs. The exceptions are those that a build makes
of other attributes: the sibling of a touched timestamp, and the list of all observables.
-/

set_option autoImplicit false

namespace EventSchema

open Value

/-! ### An object from one stage to the next -/

namespace Stages

variable {d : Definitions} {graph : Graph} (stages : Stages d graph)

/-- The fields of an object that change once it is flattened. -/
def builtKeys : List Text := ["attributes", "profiles"]

def shownObjects : Entries Fields := stages.flatObjects.filter fun entry => !isHiddenObject entry.1

private theorem identified_objects : stages.identified.objects = stages.shownObjects := by
  obtain ⟨_, resolved⟩ := Draft.resolveDictionary_ok stages.resolving
  obtain ⟨_, identified, _⟩ := Draft.identifyClasses_ok stages.identifying
  rw [identified, resolved]
  rfl

private theorem related_trans {first middle last : Entries Fields}
    (one : Entries.Related (fun _ => Entries.SameBeside builtKeys) first middle)
    (two : Entries.Related (fun _ => Entries.SameBeside builtKeys) middle last) :
    Entries.Related (fun _ => Entries.SameBeside builtKeys) first last :=
  (one.trans two).imp fun _ _ _ ⟨_, before, after⟩ => before.trans after

/-- Until the profiles are closed, no stage but the flattening changes anything else of an object. -/
theorem related_closed : Entries.Related (fun _ => Entries.SameBeside builtKeys) stages.shownObjects
    stages.closed.objects := by
  have listed : Entries.Related (fun _ => Entries.SameBeside builtKeys) stages.shownObjects
      stages.listed.objects := by
    rw [← stages.identified_objects]
    rcases Draft.listObservables_ok stages.listing with ⟨_, same⟩ | ⟨object, _, _, _, found, _, _, _, same⟩
    · rw [same]
      exact List.forall₂_same.mpr fun _ _ => ⟨rfl, .refl _ _⟩
    · rw [same]
      exact Entries.related_put (fun _ _ => .refl _ _) found ((Entries.SameBeside.refl _ _).put (by decide) _)
  obtain ⟨objects, _, closed, closes, _⟩ := Draft.closeAllProfiles_ok
    (motive := fun _ items => Entries.Related (fun _ => Entries.SameBeside builtKeys) stages.shownObjects items)
    stages.closing listed
    (by
      intro _ key items item result held found closing
      obtain ⟨_, _, _, _, _, frame⟩ := Draft.closeProfiles_ok closing
      refine related_trans held (Entries.related_put (fun _ _ => .refl _ _) found fun field kept => frame field ?_)
      rintro rfl
      exact kept (by decide))
    (fun _ _ _ held _ => held)
  rw [closed]
  exact closes

theorem related_objects : Entries.Related (fun _ => Entries.SameBeside builtKeys) stages.shownObjects
    stages.required.objects := by
  have dated : Entries.Related (fun _ => Entries.SameBeside builtKeys) stages.shownObjects
      stages.dated.objects := by
    rcases Draft.addDatetimeSiblings_ok stages.dating with ⟨_, same⟩ | ⟨_, _, _, same, _, each⟩
    · rw [same]
      exact stages.related_closed
    · rw [same]
      refine related_trans stages.related_closed (each.imp fun _ item result ran field kept => ?_)
      obtain ⟨_, _, _, _, frame⟩ := Draft.addSiblings_ok ran
      refine frame field ?_ ?_
      · rintro rfl
        exact kept (by decide)
      · rintro rfl
        exact kept (by decide)
  obtain ⟨_, _, _, required, _, each⟩ := Draft.requireAll_ok stages.requiring
  rw [required]
  refine related_trans dated (each.imp ?_)
  rintro _ item result ⟨missing, ran⟩ field kept
  refine (Draft.requireItem_ok ran).2 field ?_
  rintro rfl
  exact kept (by decide)

/-- An object of the graph with the steps that its attributes went through once the profiles were closed. -/
theorem exists_closed {key : Text} {entity : Entity} (found : Entries.get? key graph.objects = some entity) :
    ∃ item siblings whole finished, Entries.get? key stages.closed.objects = some item ∧
      Draft.SiblingsOf stages.closed (Entries.attributes item) siblings ∧
      Entries.get? key stages.required.objects = some whole ∧
      Entries.Related (fun name value result => stages.required.finishAttribute whole name value = .ok result)
        (Entries.mapValues Draft.orOptional (Draft.withSiblings (Entries.attributes item) siblings)) finished ∧
      entity.attributes = Attribute.ofValues finished := by
  obtain ⟨_, _, readObjects⟩ := Draft.graph_ok stages.reading
  obtain ⟨result, held, read⟩ := readObjects.get?_right found
  obtain ⟨_, _, _, finished, _, eachFinished⟩ := Draft.finish_ok stages.finishing
  have objects : stages.finished.objects = _ := congrArg Draft.objects finished
  obtain ⟨whole, known, finishes⟩ := eachFinished.get?_right (objects ▸ held)
  obtain ⟨_, _, _, required, _, eachRequired⟩ := Draft.requireAll_ok stages.requiring
  have requiredObjects : stages.required.objects = _ := congrArg Draft.objects required
  obtain ⟨dated, before, missing, requires⟩ := eachRequired.get?_right (requiredObjects ▸ known)
  obtain ⟨treated, _⟩ := Draft.finishItem_ok finishes
  rw [(Draft.attributes_requireItem requires).1] at treated
  have attributes := (readsItem_of_ok read).attributes
  rcases Draft.addDatetimeSiblings_ok stages.dating with ⟨_, same⟩ | ⟨_, _, _, same, _, eachDated⟩
  · exact ⟨dated, [], whole, _, same ▸ before, Or.inl rfl, known, treated, attributes⟩
  · have datedObjects : stages.dated.objects = _ := congrArg Draft.objects same
    obtain ⟨item, closed, dates⟩ := eachDated.get?_right (datedObjects ▸ before)
    obtain ⟨siblings, collected, shape, _, _⟩ := Draft.addSiblings_ok dates
    rw [shape] at treated
    exact ⟨item, siblings, whole, _, closed, Or.inr collected, known, treated, attributes⟩

end Stages

theorem Attribute.exists_of_get?_ofValues {attributes : Fields} {name : Text} {record : Attribute}
    (distinct : Entries.Distinct attributes) (found : Entries.get? name (ofValues attributes) = some record) :
    ∃ mark field, Entries.get? name attributes = some (.object mark field) ∧ record = ofFields name field := by
  obtain ⟨mark, field, member, same⟩ := exists_of_mem_ofValues (Entries.mem_of_get? found)
  exact ⟨mark, field, Entries.get?_of_mem distinct member, same⟩

/-! ### Two builds side by side -/

/-- Items of which one is defined in two ways that differ in touched attributes, and otherwise only in
what a patch may write. In either way no other attribute shares an object with a touched one, nor in the
ancestors of the item. -/
structure TouchedIn (key : Text) (touched : List Text) (items others : Entries Fields) : Prop where
  related : Entries.Related (fun _ item other => Entries.Distinct item ∧ Entries.Distinct other ∧
    Entries.SameBeside Patch.writtenKeys item other) items others
  elsewhere : ∀ other, other ≠ key → Entries.get? other others = Entries.get? other items
  attributes : ∀ item ∈ Entries.get? key items, ∀ other ∈ Entries.get? key others,
    unsharedFields (Entries.beside touched (Entries.attributes other)) =
      unsharedFields (Entries.beside touched (Entries.attributes item))
  divided : ∀ item ∈ Entries.get? key items, Divided touched (Entries.attributes item)
  divided' : ∀ other ∈ Entries.get? key others, Divided touched (Entries.attributes other)
  ancestors : ∀ item above, Lineage.Ancestry (Entries.mapValues Value.record items) ((key, item) :: above) →
    ∀ entry ∈ above, Divided touched (Entries.attributes entry.2)

namespace TouchedIn

variable {key : Text} {touched : List Text} {items others : Entries Fields}
  (differ : TouchedIn key touched items others)

include differ

theorem aligned {line : List (Text × Fields)}
    (ancestry : Lineage.Ancestry (Entries.mapValues Value.record items) line) :
    ∃ line', Lineage.Ancestry (Entries.mapValues Value.record others) line' ∧
      Entries.Related (fun name item other => Entries.get? name items = some item ∧
        Entries.get? name others = some other) line line' :=
  Lineage.Ancestry.congr (differ.related.imp fun _ _ _ both field among =>
    both.2.2 field (by revert field; decide)) ancestry

theorem field {kind : ItemKind} {field name : Text} (unwritten : field ∉ Patch.writtenKeys)
    (flag : field ≠ "observable_inherited?") (unmarked : field ≠ "_resolved") {flat flat' : Fields}
    (one : Lineage.Flat kind (Entries.mapValues Value.record items) name flat)
    (two : Lineage.Flat kind (Entries.mapValues Value.record others) name flat') :
    Entries.get? field flat' = Entries.get? field flat := by
  obtain ⟨item, above, ancestry, inherited⟩ := one
  obtain ⟨other, above', ancestry', inherited'⟩ := two
  obtain ⟨line', ancestry'', aligned⟩ := differ.aligned ancestry
  have among : ∀ joined ∈ Lineage.joinedKeys, joined ∈ Patch.writtenKeys := by decide
  have related : Entries.Related (fun _ item other => Entries.Distinct item ∧ Entries.Distinct other ∧
      ∀ kept : Text, kept = field ∨ kept = "_resolved" ∨ kept = "extends" →
        Entries.get? kept other = Entries.get? kept item) ((name, item) :: above) line' := by
    refine aligned.imp ?_
    rintro name item other ⟨held, held'⟩
    obtain ⟨_, known, distinct, distinct', same⟩ := differ.related.get?_left held
    cases known.symm.trans held'
    refine ⟨distinct, distinct', ?_⟩
    rintro kept (rfl | rfl | rfl)
    · exact same _ unwritten
    · exact same _ (by decide)
    · exact same _ (by decide)
  have front : line' = (name, other) :: above' := by
    cases aligned with
    | @cons _ first _ rest head _ =>
        obtain ⟨_, own⟩ := first
        cases head.1
        obtain ⟨rfl, rfl⟩ := ancestry''.unique ancestry'
        rfl
  exact Lineage.get?_field_congr (fun joined => unwritten (among _ joined)) flag unmarked (front ▸ related)
    inherited inherited'

theorem flat {flat flat' : Fields}
    (one : Lineage.Flat .object (Entries.mapValues Value.record items) key flat)
    (two : Lineage.Flat .object (Entries.mapValues Value.record others) key flat') :
    Divided touched (Entries.attributes flat) ∧ Divided touched (Entries.attributes flat') ∧
      unsharedFields (Entries.beside touched (Entries.attributes flat')) =
        unsharedFields (Entries.beside touched (Entries.attributes flat)) := by
  obtain ⟨item, above, ancestry, inherited⟩ := one
  obtain ⟨other, above', ancestry', inherited'⟩ := two
  obtain ⟨line', ancestry'', aligned⟩ := differ.aligned ancestry
  cases aligned with
  | @cons _ front _ rest head tail =>
      obtain ⟨own, counterpart⟩ := front
      obtain ⟨rfl, held, held'⟩ := head
      obtain ⟨rfl, rfl⟩ := ancestry''.unique ancestry'
      have fresh := ancestry.front_fresh
      have same : rest = above := by
        clear ancestry ancestry' ancestry'' inherited inherited'
        induction tail with
        | nil => rfl
        | @cons parent parent' above above' one later ih =>
            rw [List.map_cons, List.mem_cons, not_or] at fresh
            obtain ⟨named, known, known'⟩ := one
            rw [differ.elsewhere _ (Ne.symm fresh.1), known] at known'
            rw [ih fresh.2]
            exact congrArg (· :: above) (Prod.ext named (Option.some.inj known').symm)
      subst same
      obtain ⟨_, known, _, _, kept⟩ := differ.related.get?_left held
      cases known.symm.trans held'
      have ancestors := differ.ancestors _ _ ancestry
      exact ⟨Lineage.divided_of_inherit (List.forall_mem_cons.mpr ⟨differ.divided _ held, ancestors⟩) inherited,
        Lineage.divided_of_inherit (List.forall_mem_cons.mpr ⟨differ.divided' _ held', ancestors⟩) inherited',
        Lineage.beside_inherited_congr ancestors (kept _ (by decide)) (differ.attributes _ held _ held') inherited
          inherited'⟩

/-- The objects that are flattened from the two definitions look the same to references. -/
theorem captions {flats flats' : Entries Fields}
    (flattened : (Lineage.flattenAll .object (Entries.mapValues Value.record items)).Yields flats)
    (flattened' : (Lineage.flattenAll .object (Entries.mapValues Value.record others)).Yields flats') :
    Draft.SameCaptions flats flats' := by
  have raw : Entries.Related (fun _ _ _ => True) (Entries.mapValues Value.record items)
      (Entries.mapValues Value.record others) :=
    List.forall₂_map_left_iff.mpr (List.forall₂_map_right_iff.mpr
      (List.Forall₂.imp (fun _ _ both => ⟨both.1, trivial⟩) differ.related))
  have way := ((Lineage.flattenAll_ok flattened).flip.trans raw).trans (Lineage.flattenAll_ok flattened')
  refine way.imp ?_
  rintro name flat flat' ⟨_, ⟨_, one, _⟩, two⟩
  exact differ.field (by decide) (by decide) (by decide) one two

end TouchedIn

/-- Attributes that may come out changed where the given ones are touched: the object for observables
lists them all in one of its attributes. -/
def withListing (key : Text) (touched : List Text) : List Text :=
  if key = "observable" then "type_id" :: touched else touched

theorem forall_mem_withListing {key : Text} {touched : List Text} {p : Text → Prop} :
    (∀ name ∈ withListing key touched, p name) ↔
      (∀ name ∈ withListing key [], p name) ∧ ∀ name ∈ touched, p name := by
  unfold withListing
  split
  · rw [List.forall_mem_cons, List.forall_mem_singleton]
  · exact (and_iff_right (List.forall_mem_nil _)).symm

/-- Attributes that share nothing with the touched ones are there unchanged when the profiles are closed, if
that list is a touched one. -/
theorem Stages.divided_closed {d : Definitions} {graph : Graph} (stages : Stages d graph) {key : Text}
    {touched : List Text} (listed : ∀ name ∈ withListing key [], name ∈ touched) {item : Fields}
    (found : Entries.get? key stages.closed.objects = some item)
    (divided : ∀ flat, Lineage.Flat .object stages.rawObjects key flat → Divided touched (Entries.attributes flat)) :
    ∃ flat, Lineage.Flat .object stages.rawObjects key flat ∧ Entries.Distinct (Entries.attributes item) ∧
      Entries.beside touched (Entries.attributes item) = Entries.beside touched (Entries.attributes flat) := by
  obtain ⟨flat, computed, ⟨_, same⟩ | ⟨rfl, ids, enumeration, opened, enumerated, same⟩⟩ :=
    stages.closed_object found
  · refine ⟨flat, computed, ?_⟩
    rw [same]
    exact ⟨(divided flat computed).distinct, rfl⟩
  · obtain ⟨independent, distinct⟩ := divided flat computed
    obtain ⟨c, split⟩ := independent_iff.mp independent
    have named : Text.ofString "type_id" ∈ touched := listed _ (by decide)
    have own : MarkedFields (fun m => c m ↔ Text.ofString "type_id" ∈ touched) ids := by
      obtain ⟨mark, shape⟩ := inner_of_asFields opened
      have inside := split.orEmpty "type_id"
      rw [shape] at inside
      exact (marked_object.mp inside).2
    have written := own.put (Draft.marked_enumerate (own.orEmpty "enum") enumerated) "enum"
    refine ⟨flat, computed, ?_, ?_⟩
    · rw [same, Entries.Distinct, Value.putShared, Value.keys_refreshFields]
      exact distinct.put _ _
    · have known := Split.known_occurrences (marked_record.mpr written)
      rw [same, Value.putShared, (split.put (marked_record.mpr written)).beside_refreshFields known named,
        Entries.beside_put_of_mem named]

structure Definitions.Touched (d : Definitions) (key : Text) (touched : List Text) (d' : Definitions)
    (items others : Entries Fields) : Prop extends TouchedIn key touched items others where
  objects : d.objects = .record (Entries.mapValues Value.record items)
  objects' : d'.objects = .record (Entries.mapValues Value.record others)
  dictionary : d'.dictionary = d.dictionary
  profiles : d'.profiles = d.profiles

/-- An object has an attribute of its own or from its ancestors. -/
def Definitions.Gives (d : Definitions) (key name : Text) : Prop :=
  ∃ flat, Lineage.Flat .object d.objects.inner key flat ∧ Entries.has name (Entries.attributes flat) = true

namespace Definitions.Touched

variable {key : Text} {touched : List Text} {d d' : Definitions} {items others : Entries Fields}
  {graph other : Graph}

theorem raw {d : Definitions} {items : Entries Fields} {graph : Graph} (stages : Stages d graph)
    (objects : d.objects = .record (Entries.mapValues Value.record items)) :
    stages.rawObjects = Entries.mapValues Value.record items := by
  have opened := stages.readObjects
  rw [objects] at opened
  exact (Except.ok.inj opened).symm

/-- Both builds finish the attributes of objects over the same dictionary, referring to the same objects. -/
theorem lexicon (differ : d.Touched key touched d' items others) (stages : Stages d graph)
    (stages' : Stages d' other) :
    stages'.required.attributes = stages.required.attributes ∧
      Draft.SameCaptions stages.required.objects stages'.required.objects := by
  obtain ⟨_, shared, _, profiles, _⟩ := Draft.ofDefinitions_ok stages.starting
  obtain ⟨_, shared', _, profiles', _⟩ := Draft.ofDefinitions_ok stages'.starting
  have sameShared : d'.shared = d.shared := by
    unfold Definitions.shared Definitions.dictionaryFields
    rw [differ.dictionary]
  obtain ⟨attributes, types⟩ := Prod.mk.inj (Except.ok.inj (shared.symm.trans (sameShared ▸ shared')))
  have flattened := raw stages differ.objects ▸ stages.flattenObjects
  have flattened' := raw stages' differ.objects' ▸ stages'.flattenObjects
  have flats := differ.captions flattened flattened'
  have shown : Draft.SameCaptions stages.shownObjects stages'.shownObjects :=
    Entries.Related.filter flats fun key => !isHiddenObject key
  have kept {d : Definitions} {graph : Graph} (stages : Stages d graph) :
      Draft.SameCaptions stages.shownObjects stages.required.objects :=
    stages.related_objects.imp fun _ _ _ same => same "caption" (by decide)
  have start : Draft.SameLexicon
      ({ stages.start with classes := stages.flatClasses, objects := stages.flatObjects } : Draft).hideItems
      ({ stages'.start with classes := stages'.flatClasses, objects := stages'.flatObjects } : Draft).hideItems := {
    attributes := attributes.symm
    types := types.symm
    profiles := by
      change stages'.start.profiles = stages.start.profiles
      rw [profiles, profiles', differ.profiles]
    captions := shown }
  have resolved := start.resolveDictionary stages.resolving stages'.resolving
  refine ⟨?_, ((kept stages).symm.trans shown).trans (kept stages')⟩
  rw [stages.dictionary_eq, stages'.dictionary_eq, resolved]

theorem owner (differ : d.Touched key touched d' items others) (stages : Stages d graph)
    (stages' : Stages d' other) {whole whole' : Fields}
    (found : Entries.get? key stages.required.objects = some whole)
    (found' : Entries.get? key stages'.required.objects = some whole') :
    Entries.get? "extension" whole' = Entries.get? "extension" whole := by
  obtain ⟨flat, shown, kept⟩ := stages.related_objects.get?_right found
  obtain ⟨flat', shown', again⟩ := stages'.related_objects.get?_right found'
  obtain ⟨_, _, computed⟩ := (Lineage.flattenAll_ok stages.flattenObjects).mem_right
    (List.mem_of_mem_filter (Entries.mem_of_get? shown))
  obtain ⟨_, _, computed'⟩ := (Lineage.flattenAll_ok stages'.flattenObjects).mem_right
    (List.mem_of_mem_filter (Entries.mem_of_get? shown'))
  rw [raw stages differ.objects] at computed
  rw [raw stages' differ.objects'] at computed'
  rw [again "extension" (by decide), kept "extension" (by decide)]
  exact differ.field (by decide) (by decide) (by decide) computed computed'

/-- When the profiles are closed, the object has the same attributes in both builds, beside the touched
ones, shared or not. -/
theorem closed (differ : d.Touched key touched d' items others) (listed : ∀ name ∈ withListing key [], name ∈ touched)
    (stages : Stages d graph) (stages' : Stages d' other) {item item' : Fields}
    (found : Entries.get? key stages.closed.objects = some item)
    (found' : Entries.get? key stages'.closed.objects = some item') :
    Entries.Distinct (Entries.attributes item) ∧ Entries.Distinct (Entries.attributes item') ∧
      Entries.SameBeside touched (unsharedFields (Entries.attributes item))
        (unsharedFields (Entries.attributes item')) ∧
      ∀ name, d'.Gives key name → name ∉ touched → Entries.has name (Entries.attributes item') = true := by
  obtain ⟨_, some, _⟩ := stages.closed_object found
  obtain ⟨_, some', _⟩ := stages'.closed_object found'
  rw [raw stages differ.objects] at some
  rw [raw stages' differ.objects'] at some'
  obtain ⟨flat, computed, distinct, same⟩ := stages.divided_closed listed found fun flat computed =>
    (differ.flat (raw stages differ.objects ▸ computed) some').1
  obtain ⟨flat', computed', distinct', same'⟩ := stages'.divided_closed listed found' fun flat computed =>
    (differ.flat some (raw stages' differ.objects' ▸ computed)).2.1
  rw [raw stages differ.objects] at computed
  rw [raw stages' differ.objects'] at computed'
  obtain ⟨_, _, between⟩ := differ.flat computed computed'
  rw [← same, ← same'] at between
  refine ⟨distinct, distinct', sameBeside_of_beside between, ?_⟩
  rintro name ⟨other, given, has⟩ untouched
  rw [differ.objects'] at given
  cases given.unique computed'
  have shown (fields : Fields) : Entries.get? name (Entries.beside touched fields) = Entries.get? name fields := by
    rw [Entries.get?_beside, if_neg untouched]
  rw [Entries.has, ← shown, same', shown]
  exact has

end Definitions.Touched

/-- An attribute that is not touched is the same in both graphs, unless it was made as the sibling of a
touched one. -/
theorem Graph.untouched {key : Text} {touched : List Text} {d d' : Definitions} {items others : Entries Fields}
    (differ : d.Touched key touched d' items others) (listed : ∀ name ∈ withListing key [], name ∈ touched)
    {graph other : Graph} (built : (ofDefinitions d).Yields graph) (built' : (ofDefinitions d').Yields other)
    {entity entity' : Entity} (found : Entries.get? key graph.objects = some entity)
    (found' : Entries.get? key other.objects = some entity') {name : Text} (untouched : name ∉ touched)
    (apart : d'.Gives key name ∨ ∀ origin ∈ touched, name ≠ Draft.datetimeName origin)
    {record record' : Attribute} (held : Entries.get? name entity.attributes = some record)
    (held' : Entries.get? name entity'.attributes = some record') :
    unsharedFields record'.toFields = unsharedFields record.toFields := by
  obtain ⟨stages⟩ := exists_stages built
  obtain ⟨stages'⟩ := exists_stages built'
  obtain ⟨item, siblings, whole, finished, closed, added, required, finishes, attributes⟩ :=
    stages.exists_closed found
  obtain ⟨item', siblings', whole', finished', closed', added', required', finishes', attributes'⟩ :=
    stages'.exists_closed found'
  obtain ⟨distinct, distinct', same, given⟩ := differ.closed listed stages stages' closed closed'
  rw [attributes] at held
  rw [attributes'] at held'
  obtain ⟨mark, field, known, rfl⟩ := Attribute.exists_of_get?_ofValues
    (finishes.distinct ((Draft.distinct_withSiblings distinct siblings).mapValues _)) held
  obtain ⟨mark', field', known', rfl⟩ := Attribute.exists_of_get?_ofValues
    (finishes'.distinct ((Draft.distinct_withSiblings distinct' siblings').mapValues _)) held'
  obtain ⟨value, filled, ran⟩ := finishes.get?_right known
  obtain ⟨value', filled', ran'⟩ := finishes'.get?_right known'
  rw [Entries.get?_mapValues] at filled filled'
  obtain ⟨before, before_eq, rfl⟩ := Option.map_eq_some_iff.mp filled
  obtain ⟨before', before_eq', rfl⟩ := Option.map_eq_some_iff.mp filled'
  have copies := added.agree added' distinct distinct' same untouched
    (apart.imp_left fun gives => given name gives untouched) before_eq before_eq'
  obtain ⟨dictionary, captions⟩ := differ.lexicon stages stages'
  rw [Draft.finishAttribute_congr dictionary captions.told (differ.owner stages stages' required required')] at ran'
  obtain ⟨copied, finishing, one⟩ := Draft.finishAttribute_unshared ran
  obtain ⟨copied', finishing', two⟩ := Draft.finishAttribute_unshared ran'
  rw [← Draft.orOptional_unshared] at finishing finishing'
  rw [copies, finishing] at finishing'
  cases finishing'
  have shown := two.symm.trans one
  rw [unshared, unshared] at shown
  rw [Attribute.unshared_toFields, Attribute.unshared_toFields, (Value.object.inj shown).2]

end EventSchema
