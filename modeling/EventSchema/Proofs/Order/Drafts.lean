import EventSchema.Proofs.Draft.Captions
import EventSchema.Proofs.Graph.Stages
import EventSchema.Proofs.Graph.Steady
import EventSchema.Proofs.Lineage.Orphans
import EventSchema.Proofs.Lineage.Stepwise
import EventSchema.Proofs.Order.Items
import EventSchema.Proofs.Order.Mirror
import EventSchema.Proofs.Order.Observables

/-!
Drafts whose items are in another order.

What is found under a key does not depend on the order of the keys. So a pass that treats the items one by
one, and looks the others up, treats each as it does in the other draft. Only the enumeration of observables
is in another order then, and what is kept in step with it.

What an item is flattened to depends on what is found under the keys on its line alone. An item without a
parent is told of when it is flattened, and every item is flattened once, whatever asked for it first. So a
pass over the items in another order comes to the same items, in that order, and leaves the same references
unresolved.
-/

set_option autoImplicit false

namespace EventSchema

/-! ### Flattening -/

namespace Lineage

variable {kind : ItemKind} {items others : Fields}

/-! ### What is found under the keys -/

private theorem findParent_of_get? (same : ∀ key, Entries.get? key others = Entries.get? key items) (key : Text)
    (item : Value) : findParent others key item = findParent items key item :=
  findParent_congr (fun key => by rw [Entries.has, Entries.has, same]) key item

theorem Ancestry.of_get? (same : ∀ key, Entries.get? key others = Entries.get? key items) {line : List (Text × Fields)}
    (ancestry : Ancestry items line) : Ancestry others line := by
  induction ancestry with
  | root found first => exact .root ((same _).trans found) (first.imp_right (findParent_of_get? same _ _).trans)
  | child found fresh next _ ih =>
      exact .child ((same _).trans found) fresh ((findParent_of_get? same _ _).trans next) ih

theorem Flat.of_get? (same : ∀ key, Entries.get? key others = Entries.get? key items) {key : Text} {flat : Fields}
    (computed : Flat kind items key flat) : Flat kind others key flat := by
  obtain ⟨item, above, line, inherited⟩ := computed
  exact ⟨item, above, line.of_get? same, inherited⟩

private theorem orphan?_of_get? (same : ∀ key, Entries.get? key others = Entries.get? key items) (key : Text) :
    orphan? kind others key = orphan? kind items key := by
  unfold orphan?
  simp only [same, findParent_of_get? same]

/-! ### Another order -/

private theorem diagnostics_flattenAll {run after : Run} {flats : Entries Fields} (distinct : Entries.Distinct items)
    (ran : (flattenAll kind items).outcome run = (.ok flats, after)) :
    after.diagnostics.Alike (run.diagnostics.add (orphans kind items (Entries.keys items))) := by
  obtain ⟨order, perm, told⟩ := counted_flattenAll distinct ran
  have listed := perm.filterMap (orphan? kind items)
  rw [told]
  exact (Diagnostics.Alike.refl _).add ⟨listed.length_eq, rfl, listed⟩

/-- A pass over the items in another order comes to the same items, in that order. -/
theorem mirrors_flattenAll (kind : ItemKind) (distinct : Entries.Distinct items) (perm : items.Perm others) :
    (flattenAll kind items).Mirrors List.Perm (flattenAll kind others) := by
  intro run run' flats after alike ran
  have distinct' : Entries.Distinct others := (perm.map Prod.fst).nodup_iff.mp distinct
  have found (key : Text) : Entries.get? key others = Entries.get? key items :=
    Entries.get?_of_perm distinct perm.symm key
  obtain ⟨flats', computed, reordered⟩ := List.perm_comp_forall₂ perm.symm (flattenAll_ok (.of_outcome ran))
  have again : List.Forall₂ (fun key flat => flat.1 = key ∧ Flat kind others key flat.2)
      (Entries.keys others) flats' :=
    List.forall₂_map_left_iff.mpr (computed.imp fun _ _ held => ⟨held.1, held.2.of_get? found⟩)
  obtain ⟨kept, after', walked⟩ := mapM_flatten_complete run' Sound.nil again
  have ended : (flattenAll kind others).outcome run' = (.ok flats', after') := by
    rw [outcome_flattenAll, flattenEach, walked]
  refine ⟨flats', after', ended, reordered.symm, ?_⟩
  have same : (Entries.keys items).filterMap (orphan? kind items) =
      (Entries.keys items).filterMap (orphan? kind others) :=
    congrArg (List.filterMap · _) (funext fun key => (orphan?_of_get? found key).symm)
  have listed := (perm.map Prod.fst).filterMap (orphan? kind others)
  have counted : (orphans kind items (Entries.keys items)).Alike (orphans kind others (Entries.keys others)) := by
    unfold orphans
    rw [same]
    exact ⟨listed.length_eq, rfl, listed⟩
  exact (diagnostics_flattenAll distinct ran).trans
    ((alike.add counted).trans (diagnostics_flattenAll distinct' ended).symm)

end Lineage

/-! ### Drafts -/

open Value
open Act (Mirrors steady_lift steady_pure steady_mapEntries)

variable {α β γ δ : Type}

namespace Entries

/-- Entries under distinct keys, of which the same is found under each key, differ in their order alone. -/
theorem perm_of_get? {left right : Entries α} (distinct : Distinct left) (distinct' : Distinct right)
    (same : ∀ key, get? key left = get? key right) : left.Perm right := by
  refine (List.perm_ext_iff_of_nodup distinct.of_map distinct'.of_map).mpr fun entry =>
    ⟨fun member => ?_, fun member => ?_⟩
  · exact mem_of_get? ((same entry.1).symm.trans (get?_of_mem distinct member))
  · exact mem_of_get? ((same entry.1).trans (get?_of_mem distinct' member))

private theorem put_perm {left right : Entries α} (distinct : Distinct left) (perm : left.Perm right) (key : Text)
    (value : α) :
    (put key value left).Perm (put key value right) := by
  have distinct' : Distinct right := (perm.map Prod.fst).nodup_iff.mp distinct
  refine perm_of_get? (distinct.put key value) (distinct'.put key value) fun other => ?_
  rw [get?_put, get?_put, get?_of_perm distinct perm.symm]

structure Reorders (relation : α → β → Prop) (items : Entries α) (others : Entries β) : Prop where
  distinct : Distinct items
  rearranged : ∃ middle, items.Perm middle ∧ Related (fun _ => relation) middle others

namespace Reorders

variable {relation : α → β → Prop} {items : Entries α} {others : Entries β}

theorem of_perm {items others : Entries α} (distinct : Distinct items) (perm : items.Perm others) :
    Reorders Eq items others :=
  ⟨distinct, others, perm, List.forall₂_same.mpr fun _ _ => ⟨rfl, rfl⟩⟩

theorem perm {items others : Entries α} (reorders : Reorders Eq items others) : items.Perm others := by
  obtain ⟨_, middle, perm, related⟩ := reorders
  have same : List.Forall₂ Eq middle others :=
    List.Forall₂.imp (fun _ _ held => Prod.ext held.1.symm held.2) related
  rw [List.forall₂_eq_eq_eq] at same
  exact same ▸ perm

theorem imp {weaker : α → β → Prop} (reorders : Reorders relation items others)
    (each : ∀ item other, relation item other → weaker item other) : Reorders weaker items others := by
  obtain ⟨distinct, middle, perm, related⟩ := reorders
  exact ⟨distinct, middle, perm, related.imp fun _ => each⟩

theorem distinct_right (reorders : Reorders relation items others) : Distinct others := by
  obtain ⟨distinct, middle, perm, related⟩ := reorders
  exact related.distinct ((perm.map Prod.fst).nodup_iff.mp distinct)

theorem exists_left (reorders : Reorders relation items others) {entry : Text × β} (member : entry ∈ others) :
    ∃ item, (entry.1, item) ∈ items ∧ relation item entry.2 := by
  obtain ⟨_, middle, perm, related⟩ := reorders
  obtain ⟨item, present, held⟩ := related.mem_right member
  exact ⟨item, perm.mem_iff.mpr present, held⟩

theorem get? (reorders : Reorders relation items others) (key : Text) :
    Option.Rel relation (get? key items) (get? key others) := by
  obtain ⟨distinct, middle, perm, related⟩ := reorders
  rw [← get?_of_perm distinct perm.symm]
  cases found : Entries.get? key middle with
  | none =>
      have absent : Entries.get? key others = none := by
        rw [get?_eq_none_iff] at found ⊢
        rwa [related.keys_eq]
      rw [absent]
      exact .none
  | some item =>
      obtain ⟨other, held, related⟩ := related.get?_left found
      rw [held]
      exact .some related

theorem get?_eq {items others : Entries α} (reorders : Reorders Eq items others) (key : Text) :
    Entries.get? key others = Entries.get? key items :=
  get?_of_perm reorders.distinct reorders.perm.symm key

theorem has_eq (reorders : Reorders relation items others) (key : Text) : has key others = has key items := by
  have here := reorders.get? key
  unfold has
  generalize Entries.get? key items = one, Entries.get? key others = two at here
  cases here <;> rfl

theorem put (reorders : Reorders relation items others) (key : Text) {value : α} {result : β}
    (held : relation value result) : Reorders relation (put key value items) (put key result others) := by
  obtain ⟨distinct, middle, perm, related⟩ := reorders
  exact ⟨distinct.put key value, _, put_perm distinct perm key value, related.put held⟩

/-- What is treated one by one on both sides is related again, if what becomes of related values is. -/
theorem treated {step : Text → α → γ → Prop} {step' : Text → β → δ → Prop} {last : γ → δ → Prop}
    {results : Entries γ} {results' : Entries δ} (reorders : Reorders relation items others)
    (done : Related step items results) (done' : Related step' others results')
    (each : ∀ key item other result result', (key, item) ∈ items → relation item other → step key item result →
      step' key other result' → last result result') : Reorders last results results' := by
  obtain ⟨distinct, middle, perm, related⟩ := reorders
  obtain ⟨between, again, perm'⟩ := List.perm_comp_forall₂ perm.symm done
  refine ⟨done.distinct distinct, between, perm'.symm, ?_⟩
  have placed : Related (fun key item other => (key, item) ∈ items ∧ relation item other) middle others :=
    related.imp_mem fun key item other member held => ⟨perm.mem_iff.mpr member, held⟩
  refine ((Related.flip again).trans (placed.trans done')).imp ?_
  rintro key result result' ⟨item, stepped, other, ⟨member, held⟩, stepped'⟩
  exact each key item other result result' member held stepped stepped'

/-- Steady actions on related entries, in the order of each. -/
theorem mirrors_mapM {act : Text × α → Act γ} {other : Text × β → Act δ} {last : γ → δ → Prop}
    (reorders : Reorders relation items others) (steady : ∀ entry, (act entry).Steady)
    (each : ∀ key item result, (key, item) ∈ items → relation item result →
      Mirrors last (act (key, item)) (other (key, result))) :
    Mirrors (Reorders last) (items.mapM fun entry => do return (entry.1, ← act entry))
      (others.mapM fun entry => do return (entry.1, ← other entry)) := by
  obtain ⟨distinct, middle, perm, related⟩ := reorders
  have named (entry : Text × α) : (do return (entry.1, ← act entry) : Act (Text × γ)).Steady :=
    (steady entry).bind fun _ => steady_pure _
  have reordered := Mirrors.mapM_perm (fun entry _ => named entry) perm
  have placed : Mirrors (Related fun _ => last) (middle.mapM fun entry => do return (entry.1, ← act entry))
      (others.mapM fun entry => do return (entry.1, ← other entry)) := by
    have mirrored :
        Related (fun key item result => Mirrors last (act (key, item)) (other (key, result))) middle others :=
      related.imp_mem fun key item result member held => each key item result (perm.mem_iff.mpr member) held
    refine .mapM (List.Forall₂.imp ?_ mirrored)
    rintro ⟨_, item⟩ ⟨key, result⟩ ⟨rfl, mirrors⟩
    exact mirrors.bind fun _ _ held => .pure ⟨rfl, held⟩
  refine (reordered.trans placed).yields.imp ?_
  rintro results results' ⟨⟨between, perm', related'⟩, ran, _⟩
  exact ⟨(Act.yields_mapEntries ran).distinct distinct, between, perm', related'⟩

private theorem mirrors_forM {act : Text × α → Act Unit} {other : Text × β → Act Unit}
    (reorders : Reorders relation items others) (steady : ∀ entry, (act entry).Steady)
    (each : ∀ key item result, relation item result →
      Mirrors (fun _ _ => True) (act (key, item)) (other (key, result))) :
    Mirrors (fun _ _ => True) (items.forM act) (others.forM other) := by
  obtain ⟨_, middle, perm, related⟩ := reorders
  have placed : Mirrors (fun _ _ => True) (middle.forM act) (others.forM other) := by
    refine .forM (List.Forall₂.imp ?_ related)
    rintro ⟨_, item⟩ ⟨key, result⟩ ⟨rfl, held⟩
    exact each key item result held
  exact ((Mirrors.forM_perm (fun entry _ => steady entry) perm).trans placed).imp fun _ _ _ => trivial

/-- Computations on related entries, in the order of each. -/
theorem matched_mapM {step : Text × α → Except Fault γ} {step' : Text × β → Except Fault δ} {last : γ → δ → Prop}
    (reorders : Reorders relation items others)
    (each : ∀ key item result, relation item result → Matched last (step (key, item)) (step' (key, result))) :
    Matched (fun results results' => ∃ middle, results.Perm middle ∧ List.Forall₂ last middle results')
      (items.mapM step) (others.mapM step') := by
  obtain ⟨_, middle, perm, related⟩ := reorders
  refine (Matched.mapM_perm perm).trans (.mapM (List.Forall₂.imp ?_ related))
  rintro ⟨_, item⟩ ⟨key, result⟩ ⟨rfl, held⟩
  exact each key item result held

theorem matched_mapEntries {step : Text × α → Except Fault γ} {step' : Text × β → Except Fault δ}
    {last : γ → δ → Prop} (reorders : Reorders relation items others)
    (each : ∀ key item result, relation item result → Matched last (step (key, item)) (step' (key, result))) :
    Matched (Reorders last) (items.mapM fun entry => do return (entry.1, ← step entry))
      (others.mapM fun entry => do return (entry.1, ← step' entry)) := by
  have mapped : Matched (fun results results' => ∃ middle, results.Perm middle ∧
    Related (fun _ => last) middle results')
      (items.mapM fun entry => do return (entry.1, ← step entry))
      (others.mapM fun entry => do return (entry.1, ← step' entry)) :=
    reorders.matched_mapM fun key item result held =>
      (each key item result held).bind fun _ _ held => .pure ⟨rfl, held⟩
  refine mapped.both.imp ?_
  rintro results results' ⟨rearranged, ran, _⟩
  exact ⟨(Entries.mapM_eq_ok.mp ran).distinct reorders.distinct, rearranged⟩

end Reorders

end Entries

namespace Draft

/-! ### Drafts -/

/-- The same draft, its items, profiles and observables in another order. No key comes twice among the
profiles or in an attribute of the dictionary. -/
structure Corresponds (relation : Fields → Fields → Prop) (draft other : Draft) : Prop where
  object : draft.profiles.isObject = true
  distinct : Entries.Distinct draft.profiles.inner
  keyed : ∀ entry ∈ draft.attributes, Keyed entry.2
  written : ∀ o ∈ draft.observables, Written o.caption
  version : other.version = draft.version
  extensions : other.extensions = draft.extensions
  categories : other.categories = draft.categories
  attributes : other.attributes = draft.attributes
  types : other.types = draft.types
  dictionaryExtras : other.dictionaryExtras = draft.dictionaryExtras
  profiles : Reordered draft.profiles other.profiles
  classes : Entries.Reorders relation draft.classes other.classes
  objects : Entries.Reorders relation draft.objects other.objects
  observables : draft.observables.Perm other.observables
  allClasses : draft.allClasses.Perm other.allClasses
  allObjects : draft.allObjects.Perm other.allObjects

variable {relation : Fields → Fields → Prop} {draft other : Draft}

/-- The parts of items that references tell of are the same. -/
def KeepsCaptions (relation : Fields → Fields → Prop) : Prop :=
  ∀ item other, relation item other → Entries.get? "caption" other = Entries.get? "caption" item

/-! ### The dictionary -/

def KeyedCaptions (objects : Entries Fields) : Prop := ∀ key object caption, Entries.get? key objects = some object →
  Entries.get? "caption" object = some caption → Keyed caption

private theorem keyed_refer {objects : Entries Fields} {key : Value} {field referring : Fields}
    (captions : KeyedCaptions objects) (keyed : Keyed (.record field)) (ran : refer objects key field =
      .ok referring) : Keyed (.record referring) := by
  obtain ⟨found, looked, same⟩ := bind_eq_ok.mp ran
  have named : Keyed (Entries.getOr "caption" (found.getD []) (.text ∅)) := by
    rw [Entries.getOr]
    cases told : Entries.get? "caption" (found.getD []) with
    | none => exact keyed_of_not_object rfl
    | some caption =>
        cases found with
        | none => cases told
        | some object =>
            cases key with
            | text key => exact captions key object caption (Except.ok.inj looked) told
            | null | bool _ | int _ | float _ | array _ | object _ _ => cases looked
  have leaf : Keyed key := by
    cases key with
    | object mark fields => cases looked
    | null | bool _ | int _ | float _ | text _ | array _ => exact keyed_of_not_object rfl
  rw [← pure_eq_ok.mp same]
  exact ((keyed.put (keyed_of_not_object rfl) _).put leaf _).put named _

/-- An attribute of the dictionary is resolved to one without a key that comes twice. -/
theorem keyed_resolveType {name : Text} {value result : Value} (types : Keyed (.record draft.types))
    (captions : KeyedCaptions draft.objects) (keyed : Keyed value)
    (ran : (resolveType draft name value).Yields result) : Keyed result := by
  unfold resolveType at ran
  obtain ⟨field, opened, ran⟩ := Act.yields_bind ran
  have own := keyed.asFields (Act.yields_lift.mp opened)
  dsimp only at ran
  split at ran
  · obtain ⟨_, _, ran⟩ := Act.yields_bind ran
    exact Act.yields_pure.mp ran ▸ keyed
  · obtain ⟨known, asked, ran⟩ := Act.yields_bind ran
    cases known with
    | some definition =>
        obtain ⟨fields, read, ran⟩ := Act.yields_bind ran
        have whole : Keyed definition := by
          cases type : Entries.orNull "type" field with
          | text key =>
              rw [type] at asked
              exact types.of_get? (Except.ok.inj (Act.yields_lift.mp asked))
          | null | bool _ | int _ | float _ | array _ | object _ _ =>
              rw [type] at asked
              cases Act.yields_lift.mp asked
        rw [← Act.yields_pure.mp ran]
        exact own.put ((whole.asFields (Act.yields_lift.mp read)).getOr _ (keyed_of_not_object rfl)) _
    | none =>
        obtain ⟨found, _, ran⟩ := Act.yields_bind ran
        cases found with
        | none =>
            obtain ⟨_, _, ran⟩ := Act.yields_bind ran
            exact Act.yields_pure.mp ran ▸ keyed
        | some key =>
            obtain ⟨referring, referred, ran⟩ := Act.yields_bind ran
            rw [← Act.yields_pure.mp ran]
            exact keyed_refer captions own (Act.yields_lift.mp referred)

private theorem keyed_datetimeSibling {types : Fields} {entry sibling : Text × Value} (whole : Keyed (.record types))
    (keyed : Keyed entry.2) (ran : datetimeSibling? types entry = .ok (some sibling)) : Keyed sibling.2 := by
  unfold datetimeSibling? at ran
  obtain ⟨field, opened, ran⟩ := bind_eq_ok.mp ran
  have own := keyed.unshared.asFields opened
  split at ran
  · obtain ⟨definition, read, ran⟩ := bind_eq_ok.mp ran
    have caption : Keyed (Entries.getOr "caption" definition (.text "Datetime")) :=
      ((whole.orNull "datetime_t").asFields read).getOr _ (keyed_of_not_object rfl)
    cases pure_eq_ok.mp ran
    exact (own.put (keyed_of_not_object rfl) _).put caption _
  · cases pure_eq_ok.mp ran

private theorem keyed_putNew_each {attributes siblings : Fields} (keyed : ∀ entry ∈ attributes, Keyed entry.2)
    (each : ∀ sibling ∈ siblings, Keyed sibling.2) :
    ∀ entry ∈ siblings.foldl (fun all sibling => Entries.putNew sibling.1 sibling.2 all) attributes, Keyed entry.2 := by
  induction siblings generalizing attributes with
  | nil => exact keyed
  | cons head rest ih =>
      obtain ⟨first, others⟩ := List.forall_mem_cons.mp each
      refine ih (fun entry member => ?_) others
      dsimp only [Entries.putNew] at member
      split at member
      · exact keyed entry member
      · rcases Entries.mem_of_mem_put member with new | old
        · exact new ▸ first
        · exact keyed entry old

namespace Corresponds

theorem told (corresponds : Corresponds relation draft other) (keeps : KeepsCaptions relation) :
    SameTold draft.objects other.objects := by
  intro key
  have here := corresponds.objects.get? key
  generalize Entries.get? key draft.objects = one, Entries.get? key other.objects = two at here ⊢
  cases here with
  | none => rfl
  | some held => exact congrArg some (keeps _ _ held)

theorem member_eq (corresponds : Corresponds relation draft other) (asked : Value) :
    asked.member other.profiles = asked.member draft.profiles :=
  corresponds.profiles.member_eq corresponds.distinct asked

theorem datetimeEnabled_eq (corresponds : Corresponds relation draft other) :
    other.datetimeEnabled = draft.datetimeEnabled := by
  unfold datetimeEnabled holds
  rw [corresponds.types, corresponds.member_eq]

theorem hideItems (corresponds : Corresponds Eq draft other) : Corresponds Eq draft.hideItems other.hideItems :=
  { corresponds with
    classes := .of_perm (corresponds.classes.distinct.filter _) (corresponds.classes.perm.filter _)
    objects := .of_perm (corresponds.objects.distinct.filter _) (corresponds.objects.perm.filter _)
    allClasses := corresponds.classes.perm.map _
    allObjects := corresponds.objects.perm.map _ }

theorem mirrors_resolveDictionary (corresponds : Corresponds Eq draft other) (types : Keyed (.record draft.types))
    (captions : KeyedCaptions draft.objects) :
    draft.resolveDictionary.Mirrors (Corresponds Eq) other.resolveDictionary := by
  have keeps : KeepsCaptions Eq := fun _ _ same => same ▸ rfl
  unfold resolveDictionary
  rw [resolveType_congr corresponds.types (corresponds.told keeps), corresponds.attributes,
    corresponds.datetimeEnabled_eq, corresponds.types]
  refine (Mirrors.of_steady (steady_mapEntries fun entry _ =>
    steady_resolveType draft entry.1 entry.2)).yields.bind fun attributes _ ⟨same, resolved, _⟩ => ?_
  subst same
  have keyed : ∀ entry ∈ attributes, Keyed entry.2 := by
    intro entry member
    obtain ⟨value, before, ran⟩ := (Act.yields_mapEntries resolved).mem_right member
    exact keyed_resolveType types captions (corresponds.keyed _ before) ran
  refine (Mirrors.of_steady (steady_lift _)).bind fun enabled _ same => ?_
  subst same
  cases enabled with
  | false => exact .pure { corresponds with keyed := keyed, attributes := rfl, types := rfl }
  | true =>
      refine (Mirrors.note _ _).bind fun _ _ _ => (Mirrors.lift (Matched.refl _).both).bind
        fun siblings _ ⟨same, found, _⟩ => ?_
      subst same
      have given : ∀ sibling ∈ siblings, Keyed sibling.2 := by
        intro sibling member
        obtain ⟨entry, before, ran⟩ := exists_of_filterMapM found member
        exact keyed_datetimeSibling types (keyed entry before) ran
      exact .pure { corresponds with keyed := keyed_putNew_each keyed given, attributes := rfl, types := rfl }

private theorem identify_congr (categories : other.categories = draft.categories) :
    other.identify = draft.identify := by
  funext key item
  unfold identify categoryOf
  rw [categories]

theorem mirrors_identifyClasses (corresponds : Corresponds Eq draft other) :
    draft.identifyClasses.Mirrors (Corresponds Eq) other.identifyClasses := by
  unfold identifyClasses
  rw [identify_congr corresponds.categories]
  have each (key : Text) (item result : Fields) (_ : (key, item) ∈ draft.classes) (same : item = result) :
      Mirrors Eq (draft.identify key item) (draft.identify key result) :=
    same ▸ .of_steady (steady_identify draft key item)
  refine (corresponds.classes.mirrors_mapM (fun entry => steady_identify draft entry.1 entry.2) each).bind
    fun classes classes' related => ?_
  exact .pure { corresponds with classes := related }

end Corresponds

/-! ### The enumeration of observables -/

private theorem alikeOccurrences_put {key : Text} {value result : Value}
    (alike : AlikeOccurrences (occurrences value) (occurrences result)) (fields : Fields) :
    AlikeOccurrences (occurrencesFields (Entries.put key value fields))
      (occurrencesFields (Entries.put key result fields)) := by
  induction fields with
  | nil =>
      simp only [Entries.put, occurrencesFields, List.append_nil]
      exact alike
  | cons head rest ih =>
      rw [Entries.put, Entries.put]
      split
      · exact List.rel_append alike (AlikeOccurrences.refl (occurrencesFields rest))
      · exact List.rel_append (AlikeOccurrences.refl (occurrences head.2)) ih

/-- Attributes in one place, kept in step with one that is alike on both sides, stay alike. -/
theorem related_putShared {fields : Fields} (all : ∀ entry ∈ fields, Detached entry.2) (name : Text)
    {value result : Value} (similar : Similar value result) (detached : Detached value) (detached' : Detached result)
    (alike : AlikeOccurrences (occurrences value) (occurrences result)) :
    Entries.Related (fun _ => Similar) (Value.putShared name value fields) (Value.putShared name result fields) := by
  have written : Entries.Related (fun _ value result => Similar value result ∧ Detached value ∧ Detached result)
      (Entries.put name value fields) (Entries.put name result fields) :=
    Entries.Related.put (List.forall₂_same.mpr fun entry member =>
      ⟨rfl, .refl entry.2, all entry member, all entry member⟩) ⟨similar, detached, detached'⟩
  unfold Value.putShared
  generalize Entries.put name value fields = before, Entries.put name result fields = before' at written
  induction written with
  | nil => exact .nil
  | cons first _ ih =>
      rw [refreshFields, refreshFields]
      exact .cons ⟨first.1, first.2.1.refresh first.2.2.1 first.2.2.2 alike⟩ ih

/-- The attribute that lists the observables, with its enumeration in two orders. -/
theorem similar_enumeration {ids : Fields} (detached : Detached (.record ids)) {listed listed' : Value}
    (alike : Alike listed listed') (keyed : Keyed listed) (keyed' : Keyed listed') :
    SimilarFields (Entries.put "enum" listed ids) (Entries.put "enum" listed' ids) ∧
      Detached (.record (Entries.put "enum" listed ids)) ∧ Detached (.record (Entries.put "enum" listed' ids)) := by
  have beside : ∀ key ∈ referring, key ≠ ("enum" : Text) := by decide
  refine ⟨⟨alikeFields_put detached.keyed.distinct "enum" alike, fun key member => ?_⟩,
    detached.putBeside (by decide) keyed, detached.putBeside (by decide) keyed'⟩
  rw [record, record, Value.inner, Value.inner, Entries.get?_put, Entries.get?_put, if_neg (beside key member),
    if_neg (beside key member)]

theorem Corresponds.mirrors_listObservables (corresponds : Corresponds Eq draft other)
    (written : ∀ o ∈ draft.observables, Written o.caption)
    (detached : ∀ key object, Entries.get? key draft.objects = some object →
      ∀ entry ∈ Entries.attributes object, Detached entry.2) :
    draft.listObservables.Mirrors (Corresponds (SimilarItems Similar Eq)) other.listObservables := by
  have alike {items others : Entries Fields} (reorders : Entries.Reorders Eq items others) :
      Entries.Reorders (SimilarItems Similar Eq) items others :=
    reorders.imp fun item _ same => same ▸ .refl _ _ item
  unfold listObservables
  rw [corresponds.objects.get?_eq]
  cases found : Entries.get? "observable" draft.objects with
  | none =>
      dsimp only
      have unlisted : (pure draft : Act Draft).Mirrors (Corresponds (SimilarItems Similar Eq)) (pure other) :=
        .pure { corresponds with classes := alike corresponds.classes, objects := alike corresponds.objects }
      rw [corresponds.observables.isEmpty_eq]
      split
      · exact (Mirrors.warn _ _).bind fun _ _ _ => unlisted
      · exact unlisted
  | some object =>
      dsimp only
      refine (Mirrors.lift (Matched.refl _).both).bind fun attributes attributes' read => ?_
      obtain ⟨rfl, opened, _⟩ := read
      have each : ∀ entry ∈ attributes, Detached entry.2 := attributes_of_ok opened ▸ detached "observable" object found
      refine (Mirrors.lift (Matched.refl _).both).bind fun ids ids' read => ?_
      obtain ⟨rfl, read, _⟩ := read
      have own : Detached (.record ids) := by
        have held : Detached (Entries.orEmpty "type_id" attributes) := by
          rw [Entries.orEmpty, Entries.getOr]
          cases known : Entries.get? "type_id" attributes with
          | none => exact .of_plain (plain_object.mpr ⟨rfl, plainFields_nil⟩) keyed_nil
          | some value => exact each _ (Entries.mem_of_get? known)
        obtain ⟨mark, shape⟩ := inner_of_asFields read
        rw [shape] at held
        cases held.single mark ids rfl
        exact held
      refine (Mirrors.lift (enumerate_perm corresponds.observables (fun o member => (written o member).keyed)
        (own.keyed.orEmpty "enum"))).bind fun listed listed' enumerated => ?_
      obtain ⟨enumerated, shared, keyed, keyed'⟩ := enumerated
      obtain ⟨similar, whole, whole'⟩ := similar_enumeration own enumerated keyed keyed'
      have related := related_putShared each "type_id" similar whole whole' (alikeOccurrences_put shared ids)
      exact .pure { corresponds with
        classes := alike corresponds.classes
        objects := (alike corresponds.objects).put "observable" ((SimilarItems.refl _ _ object).putAttributes related) }

/-! ### Items checked and finished -/

namespace Corresponds

variable {profiles : Value → Value → Prop} {items others : Entries Fields}

theorem mirrors_checkProfiles (corresponds : Corresponds relation draft other) (kind : ItemKind)
    (reorders : Entries.Reorders (SimilarItems Similar Eq) items others) :
    (each items (draft.checkProfiles kind)).Mirrors (fun _ _ => True) (each others (other.checkProfiles kind)) := by
  have same : other.checkProfiles kind = draft.checkProfiles kind := by
    funext key item
    unfold checkProfiles
    simp only [corresponds.member_eq]
  rw [same]
  exact reorders.mirrors_forM (fun entry => steady_checkProfiles draft kind entry.1 entry.2) fun key _ _ similar =>
    Draft.mirrors_checkProfiles draft kind key corresponds.object similar

theorem mirrors_verify (corresponds : Corresponds relation draft other) (kind : ItemKind)
    (reorders : Entries.Reorders (SimilarItems Similar profiles) items others) :
    (each items (draft.verify kind)).Mirrors (fun _ _ => True) (each others (other.verify kind)) := by
  have same : other.verify kind = draft.verify kind := by
    funext key item
    unfold verify
    rw [corresponds.attributes]
  rw [same]
  exact reorders.mirrors_forM (fun entry => steady_verify draft kind entry.1 entry.2) fun key _ _ similar =>
    Draft.mirrors_verify draft kind key similar

end Corresponds

/-- Items that are alike have their requirements filled in alike, and the same were missing. -/
theorem matched_requireItems {profiles : Value → Value → Prop} {items others : Entries Fields} (kind : ItemKind)
    (reorders : Entries.Reorders (SimilarItems Similar profiles) items others) :
    Matched (fun done done' => Entries.Reorders (SimilarItems Similar profiles) done.1 done'.1 ∧ done.2.Perm done'.2)
      (requireItems kind items) (requireItems kind others) := by
  have named (key : Text) (item other : Fields) (similar : SimilarItems Similar profiles item other) :
      Matched (fun done done' => (done'.1.1 = done.1.1 ∧ SimilarItems Similar profiles done.1.2 done'.1.2) ∧
        done.2 = done'.2)
        (requireItem kind key item >>= fun done => pure ((key, done.1), done.2))
        (requireItem kind key other >>= fun done => pure ((key, done.1), done.2)) :=
    (matched_requireItem kind key similar).bind fun _ _ held => .pure ⟨⟨rfl, held.1⟩, held.2⟩
  have rearranged : Matched (fun done done' => (∃ middle, done.1.Perm middle ∧
      Entries.Related (fun _ => SimilarItems Similar profiles) middle done'.1) ∧ done.2.Perm done'.2)
      (requireItems kind items) (requireItems kind others) := by
    refine (reorders.matched_mapM named).bind fun results results' treated => ?_
    obtain ⟨middle, perm, each⟩ := treated
    refine .pure ⟨⟨middle.map Prod.fst, perm.map _, ?_⟩, ?_⟩
    · exact List.forall₂_map_left_iff.mpr (List.forall₂_map_right_iff.mpr (each.imp fun _ _ held => held.1))
    · exact filterMap_eq (each.imp fun _ _ held => held.2) ▸ perm.filterMap Prod.snd
  refine rearranged.both.imp fun done done' held => ?_
  obtain ⟨⟨rearranged, listed⟩, ran, _⟩ := held
  exact ⟨⟨(requireItems_ok ran).distinct reorders.distinct, rearranged⟩, listed⟩

namespace Corresponds

variable {profiles : Value → Value → Prop}

theorem mirrors_requireAll (corresponds : Corresponds (SimilarItems Similar profiles) draft other) :
    draft.requireAll.Mirrors (Corresponds (SimilarItems Similar profiles)) other.requireAll := by
  unfold requireAll
  refine (Mirrors.lift (Matched.both fun _ => corresponds.profiles.asFields)).bind
    fun named named' ⟨perm, opened, _⟩ => ?_
  refine (Mirrors.lift (Matched.mapM_perm perm).both).bind fun done done' ⟨donePerm, treated, _⟩ => ?_
  refine (Mirrors.lift (matched_requireItems .eventClass corresponds.classes)).bind
    fun ⟨classes, inClasses⟩ ⟨classes', inClasses'⟩ ⟨reorders, listed⟩ => ?_
  refine (Mirrors.lift (matched_requireItems .object corresponds.objects)).bind
    fun ⟨objects, inObjects⟩ ⟨objects', inObjects'⟩ ⟨reorders', listed'⟩ => ?_
  have missing := ((donePerm.filterMap Prod.snd).append listed).append listed'
  have distinct : Entries.Distinct (done.map fun entry => (entry.1.1, Value.record entry.1.2)) := by
    obtain ⟨mark, shape⟩ := inner_of_asFields opened
    have keys : Entries.Distinct named := by
      have given := corresponds.distinct
      rwa [shape] at given
    have kept : Entries.Related (fun _ (_ : Value) (_ : Value) => True) named
        (done.map fun entry => (entry.1.1, Value.record entry.1.2)) := by
      refine List.forall₂_map_right_iff.mpr ((mapM_eq_ok.mp treated).imp fun entry result one => ?_)
      obtain ⟨_, _, one⟩ := bind_eq_ok.mp one
      obtain ⟨⟨item, missing⟩, _, same⟩ := bind_eq_ok.mp one
      cases pure_eq_ok.mp same
      exact ⟨rfl, trivial⟩
    exact kept.distinct keys
  have required : Corresponds (SimilarItems Similar profiles)
      { draft with
        profiles := .record (done.map fun entry => (entry.1.1, Value.record entry.1.2)), classes, objects }
      { other with
        profiles := .record (done'.map fun entry => (entry.1.1, Value.record entry.1.2))
        classes := classes', objects := objects' } :=
    { corresponds with
      object := rfl, distinct, profiles := .object (donePerm.map _), classes := reorders, objects := reorders' }
  dsimp only
  rw [← missing.isEmpty_eq]
  split
  · exact (Mirrors.warn _ _).bind fun _ _ _ => .pure required
  · exact .pure required

private theorem matched_profileItems (corresponds : Corresponds relation draft other) :
    Matched (Entries.Reorders Eq) draft.profileItems other.profileItems := by
  refine Matched.bind (Matched.both fun _ => corresponds.profiles.asFields) fun named named' ⟨perm, opened, _⟩ => ?_
  obtain ⟨mark, shape⟩ := inner_of_asFields opened
  have given := corresponds.distinct
  rw [shape] at given
  refine (Entries.Reorders.of_perm given perm).matched_mapEntries fun _ _ _ same => ?_
  subst same
  exact .refl _

private theorem finishItem_eq (corresponds : Corresponds relation draft other) (keeps : KeepsCaptions relation) :
    other.finishItem = draft.finishItem := by
  funext item
  unfold finishItem
  simp only [finishAttribute_congr corresponds.attributes (corresponds.told keeps) rfl]

theorem matched_finish (corresponds : Corresponds (SimilarItems Similar profiles) draft other) :
    Matched (Corresponds (SimilarItems Alike profiles)) draft.finish other.finish := by
  have finished {items others : Entries Fields}
      (reorders : Entries.Reorders (SimilarItems Similar profiles) items others) :
      Matched (Entries.Reorders (SimilarItems Alike profiles)) (draft.finishItems items) (draft.finishItems others) :=
    reorders.matched_mapEntries fun _ _ _ similar => matched_finishItem draft corresponds.keyed similar
  unfold finish
  have same : other.finishItems = draft.finishItems := by
    unfold finishItems
    rw [corresponds.finishItem_eq fun _ _ similar => similar.get?_eq (by decide) (by decide)]
  rw [same]
  refine (finished corresponds.classes).bind fun classes classes' inClasses => ?_
  refine (finished corresponds.objects).bind fun objects objects' inObjects => ?_
  refine corresponds.matched_profileItems.bind fun items items' same => ?_
  have profiles : Matched (Entries.Reorders Eq) (draft.finishItems items) (draft.finishItems items') :=
    same.matched_mapEntries fun _ _ _ same => same ▸ .refl _
  refine profiles.bind fun profiles profiles' same => ?_
  exact .pure { corresponds with
    object := rfl
    distinct := same.distinct.mapValues _
    profiles := .object (same.perm.map _)
    classes := inClasses
    objects := inObjects }

end Corresponds

end Draft

end EventSchema
