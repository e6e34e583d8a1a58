import EventSchema.Proofs.Draft.Attributes
import EventSchema.Proofs.Draft.Datetime
import EventSchema.Proofs.Draft.Formed

/-!
A formed draft comes through to the end.

The observables are listed if none of their identifiers is taken, and after that no step stops: profiles
are checked and closed, siblings added, attributes verified and finished. Each step leaves a formed
draft, and the last one can be read into records.
-/

set_option autoImplicit false

namespace EventSchema

open Value

namespace Draft

variable {ids : Text → Prop} {draft : Draft} {kind : ItemKind}

/-! ### Observables -/

/-- The identifiers that attributes list as those of observables, with what they say of each. -/
def typeIds (attributes : Fields) : Fields :=
  (Entries.orEmpty "enum" (Entries.orEmpty "type_id" attributes).inner).inner

theorem typeIds_read {attributes : Fields} (whole : AreAttributes ids attributes) :
    ∃ mark fields, (Entries.orEmpty "type_id" attributes).asFields = .ok fields ∧ IsAttribute ids (.record fields) ∧
      Entries.orEmpty "enum" fields = .object mark (typeIds attributes) ∧
      (Value.object mark (typeIds attributes)).isSection = true ∧ Keyed (.record (typeIds attributes)) := by
  obtain ⟨fields, same, keyed, shaped⟩ := whole.orEmpty "type_id"
  have typed : IsAttribute ids (.record fields) := ⟨fields, rfl, keyed, shaped⟩
  have enumerates : (Entries.orEmpty "enum" fields).isSection = true := by
    unfold Entries.orEmpty Entries.getOr
    cases found : Entries.get? "enum" fields with
    | none => rfl
    | some value => exact (shaped _ _ found).enum rfl
  have listed := keyed.orEmpty "enum"
  unfold typeIds
  rw [same, Value.inner_record]
  cases shape : Entries.orEmpty "enum" fields with
  | object mark enumeration =>
      rw [shape] at enumerates listed
      exact ⟨mark, fields, rfl, typed, shape, enumerates, keyed_object.mp listed⟩
  | null | bool _ | int _ | float _ | text _ | array _ =>
      rw [shape] at enumerates
      cases enumerates

/-- The observables are listed among the identifiers if none of theirs is there already. -/
theorem typeIds_listed {enums : Nat → Prop} {attributes : Fields} (own : AreSited ids enums attributes)
    {observables : List Observable} (distinct : (Observable.ids observables).Nodup)
    (captions : ∀ o ∈ observables, Keyed o.caption)
    (fresh : ∀ o ∈ observables, Entries.has o.id (typeIds attributes) = false) :
    ∃ mark fields, (Entries.orEmpty "type_id" attributes).asFields = .ok fields ∧
      enumerate observables (Entries.orEmpty "enum" fields) =
        .ok (.object mark (withListings observables (typeIds attributes))) ∧
      IsSited ids enums (.record (Entries.put "enum" (.object mark (withListings observables (typeIds attributes)))
        fields)) := by
  obtain ⟨mark, fields, read, typed, same, enumeration, keyed⟩ := typeIds_read own.areAttributes
  refine ⟨mark, fields, read, ?_, ?_⟩
  · rw [same]
    exact enumerate_ok mark distinct fresh
  · have sited : IsSited ids enums (.record fields) := by
      have held := own.orEmpty "type_id"
      obtain ⟨other, shape⟩ := held.exists_fields
      rw [shape] at read held
      cases read
      exact held
    have place : SitedField enums "enum" (.object mark (typeIds attributes)) := by
      rw [← same]
      unfold Entries.orEmpty Entries.getOr
      cases found : Entries.get? "enum" fields with
      | none => exact sitedField_of_plain (plain_object.mpr ⟨rfl, plainFields_nil⟩)
      | some value => exact sited.sited _ _ found
    obtain ⟨head, inside⟩ := sitedField_enum.mp place
    refine sited.put (attributeField_of_enum (isSection_withListings _ enumeration))
      (keyed_object.mpr (keyed_withListings captions keyed)) ?_
    exact sitedField_enum.mpr ⟨head, markedFields_withListings _ inside⟩

/-- The observables are listed if no identifier is given twice. -/
theorem ensures_listObservables (formed : Formed ids draft) (distinct : (Observable.ids draft.observables).Nodup)
    (captions : ∀ o ∈ draft.observables, Keyed o.caption)
    (sited : ∀ object, Entries.get? "observable" draft.objects = some object →
      ∃ enums, AreSited ids enums (Entries.attributes object))
    (fresh : ∀ object, Entries.get? "observable" draft.objects = some object →
      ∀ o ∈ draft.observables, Entries.has o.id (typeIds (Entries.attributes object)) = false) :
    draft.listObservables.Ensures fun listed => Formed ids listed ∧ ∃ objects, listed = { draft with objects } := by
  unfold listObservables
  cases found : Entries.get? "observable" draft.objects with
  | none =>
      dsimp only
      split
      · exact (Act.ensures_warn _).bind fun _ _ => Act.ensures_pure ⟨formed, _, rfl⟩
      · exact Act.ensures_pure ⟨formed, _, rfl⟩
  | some object =>
      have whole := formed.objects _ (Entries.mem_of_get? found)
      obtain ⟨opened, attributes⟩ := whole.attributesOf
      obtain ⟨enums, own⟩ := sited object found
      obtain ⟨mark, fields, read, listed, entered⟩ := typeIds_listed own distinct captions (fresh object found)
      refine (Act.ensures_lift (⟨_, opened, rfl⟩ : Ensures _ (Entries.attributes object = ·))).bind ?_
      rintro _ rfl
      refine (Act.ensures_lift (⟨_, read, rfl⟩ : Ensures _ (fields = ·))).bind ?_
      rintro _ rfl
      refine (Act.ensures_lift (⟨_, listed, rfl⟩ : Ensures _ (_ = ·))).bind ?_
      rintro _ rfl
      refine Act.ensures_pure ⟨?_, _, rfl⟩
      exact { formed with
        objects := fun entry member => by
          rcases Entries.mem_of_mem_put member with added | before
          · rw [added]
            exact whole.putAttributes (own.putShared entered).areAttributes
          · exact formed.objects entry before }

/-- Listing stops at an observable whose identifier the object for observables has already. -/
theorem listObservables_collides (formed : Formed ids draft) {object : Fields}
    (found : Entries.get? "observable" draft.objects = some object) {o : Observable} (member : o ∈ draft.observables)
    (known : Entries.has o.id (typeIds (Entries.attributes object)) = true) (run : Run) :
    ∃ fault after, draft.listObservables.outcome run = (.error (.duplicate fault), after) := by
  have whole := formed.objects _ (Entries.mem_of_get? found)
  obtain ⟨opened, attributes⟩ := whole.attributesOf
  obtain ⟨mark, fields, read, _, same, _, _⟩ := typeIds_read attributes
  obtain ⟨fault, stopped⟩ := enumerate_collides mark member known
  refine ⟨fault, run, ?_⟩
  unfold attributesOf at opened
  unfold listObservables
  rw [found]
  dsimp only
  rw [Act.outcome_bind, Act.outcome_lift, opened]
  dsimp only
  rw [Act.outcome_bind, Act.outcome_lift, read]
  dsimp only
  rw [Act.outcome_bind, Act.outcome_lift, same, stopped]

/-! ### Profiles -/

private theorem ensures_mergeProfiles {lists : List (Option Value)}
    (texts : ∀ list ∈ lists, Ensures (Value.itemsOrNone list) fun items =>
      ∀ value ∈ items, ∃ text : Text, value = .text text) :
    Ensures (mergeProfiles lists) fun merged => ∀ value ∈ merged, ∃ text : Text, value = .text text := by
  obtain ⟨contents, each, related⟩ : Ensures (lists.mapM Value.itemsOrNone)
      (List.Forall₂ (fun _ items => ∀ value ∈ items, ∃ text : Text, value = .text text) lists) := .mapM texts
  refine ⟨_, mergeProfiles_eq_ok.mpr ⟨contents, each, rfl⟩, fun value member => ?_⟩
  rcases mem_of_mem_addNew member with impossible | given
  · cases impossible
  · obtain ⟨items, listed, inside⟩ := List.mem_flatten.mp given
    obtain ⟨_, _, held⟩ := exists_left_of_mem related listed
    exact held value inside

/-- The scope that an attribute is in is asked without a fault. -/
theorem ensures_extensionOf {field : Fields} (whole : IsAttribute ids (.record field)) (item : Fields) :
    Ensures (extensionOf field item) fun _ => True := by
  have named : (Entries.orNull "_source" field).isName = true := whole.orNull_name (by decide)
  unfold extensionOf
  rcases name_cases named with same | ⟨text, same⟩ <;> rw [same]
  · exact .pure trivial
  · dsimp only
    split
    · rw [Value.member, ok_bind]
      split <;> exact .pure trivial
    · exact .pure trivial

/-- The object that an attribute refers to is asked without a fault. -/
theorem ensures_objectTypeOf (formed : Formed ids draft) (name : Text) {value : Value} (whole : IsAttribute ids value) :
    Ensures (objectTypeOf draft (name, value)) fun type => type.isName = true := by
  obtain ⟨field, rfl, keyed, shaped⟩ := whole
  have whole : IsAttribute ids (.record field) := ⟨field, rfl, keyed, shaped⟩
  have aimed : (Entries.orNull "object_type" field).isName = true := whole.orNull_name (by decide)
  unfold objectTypeOf
  rw [Value.record, Value.asFields, ok_bind]
  dsimp only
  split
  · refine (ensures_extensionOf whole []).bind fun scope _ => ?_
    refine (Scope.ensures_find? draft.objects aimed _).bind fun found known => .pure ?_
    cases found with
    | none => rfl
    | some key =>
        obtain ⟨text, rfl, _⟩ := known key rfl
        rfl
  · unfold Entries.orNull Entries.getOr
    cases found : Entries.get? name draft.attributes with
    | none => exact .pure rfl
    | some shared =>
        obtain ⟨known, rfl, keyedShared, shapedShared⟩ := formed.attributes.of_get? found
        rw [Option.getD_some]
        split
        · rw [Value.record, Value.asFields, ok_bind]
          exact .pure (IsAttribute.orNull_name ⟨known, rfl, keyedShared, shapedShared⟩ (by decide))
        · exact .pure rfl

def ReadsTexts (value : Option Value) : Prop :=
  Ensures (Value.itemsOrNone value) fun items => ∀ value ∈ items, ∃ text : Text, value = .text text

private theorem readsTexts_of_textList {value : Option Value} (texts : TextList value) : ReadsTexts value :=
  ⟨_, texts.itemsOrNone, fun _ member => texts.text_of_mem member⟩

private theorem readsTexts_null : ReadsTexts (some .null) := ⟨[], rfl,
    fun _ impossible => absurd impossible List.not_mem_nil⟩

private theorem readsTexts_orNull {item : Fields} (whole : IsItem kind ids item) :
    ReadsTexts (some (Entries.orNull "profiles" item)) := by
  unfold Entries.orNull Entries.getOr
  cases found : Entries.get? "profiles" item with
  | none => exact readsTexts_null
  | some value => exact readsTexts_of_textList ((whole _ _ found).profiles rfl)

/-- The walk through the objects that attributes lead to ends, and what it gathers are lists of texts. -/
theorem ensures_reach (formed : Formed ids draft) {before : Entries Value} {todo : List (Text × Value)}
    (each : ∀ entry ∈ todo, IsAttribute ids entry.2) (texts : ∀ entry ∈ before, ReadsTexts (some entry.2)) :
    Ensures (reach draft before todo) fun after => ∀ entry ∈ after, ReadsTexts (some entry.2) := by
  induction before, todo using reach.induct draft with
  | case1 before =>
      rw [reach]
      exact .ok texts
  | case2 before entry rest passed opened =>
      obtain ⟨first, others⟩ := List.forall_mem_cons.mp each
      have later := passed others texts
      rw [reach]
      refine (ensures_objectTypeOf formed entry.1 first).bind fun type named => ?_
      split
      · exact later
      · rename_i given
        rcases name_cases named with rfl | ⟨key, rfl⟩
        · exact absurd rfl given
        · dsimp only
          split
          · exact later
          · rename_i fresh
            split
            · rename_i present
              obtain ⟨object, held⟩ := Option.isSome_iff_exists.mp present
              have whole : IsItem .object ids ((Entries.get? key draft.objects).getD []) := by
                rw [held]
                exact formed.objects _ (Entries.mem_of_get? held)
              obtain ⟨read, attributes⟩ := whole.attributesOf
              split
              · rename_i fault stopped
                rw [read] at stopped
                cases stopped
              · rename_i known told
                rw [read] at told
                cases told
                refine opened key fresh present _ read ?_ ?_
                · exact List.forall_mem_append.mpr ⟨attributes.each, others⟩
                · intro entry member
                  rcases Entries.mem_of_mem_put member with added | before
                  · rw [added]
                    exact readsTexts_orNull whole
                  · exact texts entry before
            · exact later

private theorem ensures_closeProfiles (formed : Formed ids draft)
    (key : Text) {item : Fields} (whole : IsItem kind ids item) :
    (closeProfiles draft kind key item).Ensures (IsItem kind ids) := by
  have start : ∀ entry ∈ (if kind = .eventClass then [] else [(key, .null)] : Entries Value),
      ReadsTexts (some entry.2) := by
    intro entry member
    split at member
    · cases member
    · rw [List.mem_singleton.mp member]
      exact readsTexts_null
  obtain ⟨read, attributes⟩ := whole.attributesOf
  unfold closeProfiles
  dsimp only
  refine (Act.ensures_lift (⟨_, read, attributes⟩ : Ensures _ (AreAttributes ids))).bind fun attributes known => ?_
  refine (Act.ensures_lift (ensures_reach formed known.each start)).bind fun reached texts => ?_
  have lists : ∀ list ∈ Entries.get? "profiles" item :: reached.map (fun entry => some entry.2), ReadsTexts list := by
    intro list member
    rcases List.mem_cons.mp member with own | other
    · rw [own]
      exact readsTexts_of_textList whole.textList
    · obtain ⟨entry, present, same⟩ := List.mem_map.mp other
      exact same ▸ texts entry present
  refine (Act.ensures_lift (ensures_mergeProfiles lists)).bind fun profiles members => ?_
  have closed : IsItem kind ids (Entries.put "profiles" (.array profiles) item) :=
    whole.put (itemField_profiles members)
  split
  · refine (Act.ensures_note _).bind fun _ _ => ?_
    split
    · exact Act.ensures_pure whole
    · exact Act.ensures_pure closed
  · split
    · exact Act.ensures_pure whole
    · exact Act.ensures_pure closed

def FormedBeside (ids : Text → Prop) (draft current : Draft) : Prop :=
  Formed ids current ∧ ∃ objects, current = { draft with objects }

/-- The profiles of all items are closed, and nothing but the items changes. -/
theorem ensures_closeAllProfiles (formed : Formed ids draft) :
    draft.closeAllProfiles.Ensures fun closed => Formed ids closed ∧
      ∃ objects classes, closed = { draft with objects, classes } := by
  unfold closeAllProfiles
  have initial : FormedBeside ids draft draft := ⟨formed, draft.objects, rfl⟩
  refine (Act.ensures_foldlM initial (fun current key _ held => ?_) : Act.Ensures _ (FormedBeside ids draft)).bind
    fun current held => ?_
  · obtain ⟨formed, objects, rfl⟩ := held
    dsimp only
    cases found : Entries.get? key objects with
    | none => exact Act.ensures_pure ⟨formed, objects, rfl⟩
    | some item =>
        have whole := formed.objects _ (Entries.mem_of_get? found)
        refine (ensures_closeProfiles formed key whole).bind fun closed known => Act.ensures_pure ⟨?_, _, rfl⟩
        exact { formed with
          objects := fun entry member => by
            rcases Entries.mem_of_mem_put member with added | before
            · rw [added]
              exact known
            · exact formed.objects entry before }
  · obtain ⟨formed, objects, rfl⟩ := held
    refine (Act.ensures_mapEach fun entry member => ensures_closeProfiles formed entry.1
      (formed.classes entry member)).bind ?_
    intro classes related
    refine Act.ensures_pure ⟨?_, _, _, rfl⟩
    exact { formed with
      classes := fun entry member => by
        obtain ⟨_, _, whole⟩ := related.mem_right member
        exact whole }

/-! ### Reports -/

private theorem ensures_go_on : (pure (.yield PUnit.unit) : Act (ForInStep PUnit)).Ensures fun step => step =
    .yield PUnit.unit :=
  Act.ensures_pure rfl

/-- Whether the schema has a profile is asked of a name. -/
theorem Formed.ensures_member (formed : Formed ids draft) {profile : Value} (named : profile.isName = true) :
    Ensures (profile.member draft.profiles) fun _ => True := by
  obtain ⟨fields, same, _⟩ := formed.profiles
  rw [same]
  rcases name_cases named with rfl | ⟨text, rfl⟩
  · exact .ok trivial
  · exact .ok trivial

theorem ensures_checkProfiles (formed : Formed ids draft) (key : Text) {item : Fields} (whole : IsItem kind ids item) :
    (checkProfiles draft kind key item).Ensures fun _ => True := by
  have texts : Ensures (Value.orElse (Entries.get? "profiles" item) (.array [])).iterate fun profiles =>
      ∀ value ∈ profiles, ∃ text : Text, value = .text text :=
    ⟨_, whole.profiles_iterate, fun _ member => whole.textList.text_of_mem member⟩
  obtain ⟨opened, attributes⟩ := whole.attributesOf
  unfold checkProfiles
  refine (Act.ensures_lift texts).bind fun profiles texts => ?_
  refine (Act.ensures_forIn fun profile member => ?_).bind fun _ _ => ?_
  · obtain ⟨text, rfl⟩ := texts profile member
    refine (Act.ensures_lift (formed.ensures_member rfl)).bind fun known _ => ?_
    split
    · exact (Act.ensures_warn _).bind fun _ _ => ensures_go_on
    · exact ensures_go_on
  · refine (Act.ensures_lift (⟨_, opened, attributes⟩ : Ensures _ (AreAttributes ids))).bind fun attributes known => ?_
    refine (Act.ensures_forIn fun entry member => ?_).bind fun _ _ => Act.ensures_pure trivial
    obtain ⟨fields, same, keyed, shaped⟩ := known.each entry member
    have named : (Entries.orNull "profile" fields).isName = true :=
      IsAttribute.orNull_name ⟨fields, rfl, keyed, shaped⟩ (by decide)
    rw [same]
    refine (Act.ensures_lift (.ok rfl : Ensures (Value.record fields).asFields (fields = ·))).bind ?_
    rintro _ rfl
    dsimp only
    split
    · refine (Act.ensures_lift (formed.ensures_member named)).bind fun known _ => ?_
      split
      · exact (Act.ensures_warn _).bind fun _ _ => ensures_go_on
      · exact ensures_go_on
    · exact ensures_go_on

/-- Reporting a description that asks to be replaced does not stop. -/
theorem ensures_reportGeneric (kind : ItemKind) (key name : Text) (fields : Fields) {shared : Fields}
    (described : ∀ value, Entries.get? "description" shared = some value → ∃ text, value = .text text) :
    (do
      if !(← (holds (.record fields) "description" : Except Fault Bool)) then
        let description := Entries.getOr "description" shared (.text ∅)
        if ← (holds description "See specific usage" : Except Fault Bool) then
          warn (.genericDescription kind key name description)
          pure (.yield PUnit.unit)
        else pure (.yield PUnit.unit)
      else pure (.yield PUnit.unit) : Act (ForInStep PUnit)).Ensures fun step => step = .yield PUnit.unit := by
  have text : ∃ text : Text, Entries.getOr "description" shared (.text ∅) = .text text := by
    unfold Entries.getOr
    cases told : Entries.get? "description" shared with
    | none => exact ⟨∅, rfl⟩
    | some value => exact described value told
  obtain ⟨text, same⟩ := text
  rw [same]
  refine (Act.ensures_lift (.ok trivial : Ensures (holds (.record fields) "description") fun _ => True)).bind ?_
  intro known _
  split
  · refine (Act.ensures_lift (.ok trivial : Ensures (holds (.text text) "See specific usage") fun _ => True)).bind ?_
    intro generic _
    split
    · exact (Act.ensures_warn _).bind fun _ _ => ensures_go_on
    · exact ensures_go_on
  · exact ensures_go_on

private theorem ensures_verifyEach (formed : Formed ids draft)
    (key : Text) {item : Fields} (whole : IsItem kind ids item) :
    (do
      for entry in ← attributesOf item do
        match Entries.get? entry.1 draft.attributes with
        | none => warn (.undefinedField kind key entry.1)
        | some shared =>
          let shared ← shared.asFields
          if Value.given (Entries.get? "@deprecated" shared) && !Value.given (Entries.get? "@deprecated" item) then
            note (.deprecatedField kind key entry.1)
          if !(← holds entry.2 "description") then
            let description := Entries.getOr "description" shared (.text ∅)
            if ← holds description "See specific usage" then
              warn (.genericDescription kind key entry.1 description) : Act Unit).Ensures fun _ => True := by
  obtain ⟨opened, attributes⟩ := whole.attributesOf
  refine (Act.ensures_lift (⟨_, opened, attributes⟩ : Ensures _ (AreAttributes ids))).bind fun attributes known => ?_
  refine (Act.ensures_forIn fun entry member => ?_).bind fun _ _ => Act.ensures_pure trivial
  obtain ⟨fields, same, keyed, shaped⟩ := known.each entry member
  rw [same]
  cases found : Entries.get? entry.1 draft.attributes with
  | none => exact (Act.ensures_warn _).bind fun _ _ => ensures_go_on
  | some shared =>
      obtain ⟨inner, rfl, _, _⟩ := formed.attributes.of_get? found
      refine (Act.ensures_lift (.ok rfl : Ensures (Value.record inner).asFields (inner = ·))).bind ?_
      rintro _ rfl
      have last := ensures_reportGeneric kind key entry.1 fields
        (formed.described _ (Entries.mem_of_get? found))
      dsimp only
      split
      · exact (Act.ensures_note _).bind fun _ _ => last
      · exact last

/-- Reporting on the attributes of an item does not stop. -/
theorem ensures_verify (formed : Formed ids draft) (key : Text) {item : Fields} (whole : IsItem kind ids item) :
    (verify draft kind key item).Ensures fun _ => True := by
  unfold verify
  dsimp only
  split
  · exact (Act.ensures_note _).bind fun _ _ => ensures_verifyEach formed key whole
  · exact ensures_verifyEach formed key whole

/-! ### Siblings -/

private theorem ensures_siblingOf? (formed : Formed ids draft) (attributes : Fields) {entry : Text × Value} (whole :
    IsAttribute ids entry.2) :
    Ensures (draft.siblingOf? attributes entry) fun found => ∀ sibling ∈ found, IsAttribute ids sibling.2 := by
  obtain ⟨name, value⟩ := entry
  obtain ⟨field, copy, keyed, shaped⟩ := whole.copied
  have whole : IsAttribute ids (.record field) := ⟨field, rfl, keyed, shaped⟩
  obtain ⟨shared, same, _, _⟩ := formed.attributes.orEmpty name
  have typed : Ensures (draft.typeOf name field) fun _ => True := by
    unfold typeOf
    dsimp only
    split
    · exact .pure trivial
    · rw [same, Value.record, Value.asFields, ok_bind]
      exact .pure trivial
  unfold siblingOf?
  dsimp only
  rw [copy, Value.record, Value.asFields, ok_bind]
  refine typed.bind fun type _ => ?_
  split
  · refine .pure ?_
    rintro _ ⟨⟩
    have untyped := whole.erase "type"
    have profiled : IsAttribute ids (.record (Entries.put "profile" (.text "datetime") (Entries.erase "type" field))) :=
      untyped.put (attributeField_of_name (by decide) rfl) (keyed_of_not_object rfl)
    refine profiled.put ?_ (keyed_of_not_object rfl)
    exact attributeField_of_other (by decide) (by decide) (by decide) _
  · exact .pure fun _ impossible => by cases impossible

private theorem areAttributes_withSiblings {attributes siblings : Fields} (whole : AreAttributes ids attributes)
    (each : ∀ sibling ∈ siblings, IsAttribute ids sibling.2) :
    AreAttributes ids (withSiblings attributes siblings) := by
  refine ⟨distinct_withSiblings whole.distinct siblings, fun entry member => ?_⟩
  rcases mem_of_mem_withSiblings member with before | added
  · exact whole.each entry before
  · exact each entry added

private theorem ensures_addSiblings (formed : Formed ids draft) {item : Fields} (whole : IsItem kind ids item) :
    Ensures (draft.addSiblings item) (IsItem kind ids) := by
  have start : IsItem kind ids (Entries.putNew "attributes" (.record []) item) := whole.putNewAttributes
  obtain ⟨opened, attributes⟩ := start.attributesOf
  unfold addSiblings
  dsimp only
  rw [opened, ok_bind]
  have siblings : Ensures ((Entries.attributes (Entries.putNew "attributes" (.record []) item)).filterMapM
      (draft.siblingOf? (Entries.attributes (Entries.putNew "attributes" (.record []) item)))) fun siblings =>
      ∀ sibling ∈ siblings, IsAttribute ids sibling.2 :=
    .filterMapM fun entry member => ensures_siblingOf? formed _ (attributes.each entry member)
  refine siblings.bind fun siblings each => ?_
  split
  · exact .pure start
  · have lists : ∀ list ∈ [Entries.get? "profiles" (Entries.putNew "attributes" (.record []) item),
        some (.array [.text "datetime"])], ReadsTexts list := by
      refine List.forall_mem_cons.mpr ⟨readsTexts_of_textList start.textList, List.forall_mem_singleton.mpr ?_⟩
      exact readsTexts_of_textList (textList_array fun value member => ⟨"datetime", List.mem_singleton.mp member⟩)
    refine (ensures_mergeProfiles lists).bind fun profiles texts => .pure ?_
    exact (start.putAttributes (areAttributes_withSiblings attributes each)).put (itemField_profiles texts)

private theorem ensures_addSiblingsToEach (formed : Formed ids draft) {items : Entries Fields} (whole :
    ∀ entry ∈ items, IsItem kind ids entry.2) :
    Ensures (draft.addSiblingsToEach items) fun results => ∀ entry ∈ results, IsItem kind ids entry.2 := by
  unfold addSiblingsToEach
  refine (Ensures.mapEach fun entry member => ensures_addSiblings formed (whole entry member)).imp ?_
  intro results related entry member
  obtain ⟨_, _, held⟩ := related.mem_right member
  exact held

/-- Siblings are added to all items, and nothing but the items changes. -/
theorem ensures_addDatetimeSiblings (formed : Formed ids draft) :
    Ensures draft.addDatetimeSiblings fun dated => Formed ids dated ∧
      ∃ classes objects, dated = { draft with classes, objects } := by
  unfold addDatetimeSiblings
  refine formed.datetimeEnabled.bind fun enabled _ => ?_
  cases enabled with
  | true =>
      refine (ensures_addSiblingsToEach formed formed.classes).bind fun classes eachClass => ?_
      refine (ensures_addSiblingsToEach formed formed.objects).bind fun objects eachObject => .pure ⟨?_, _, _, rfl⟩
      exact { formed with classes := eachClass, objects := eachObject }
  | false => exact .pure ⟨formed, _, _, rfl⟩

/-! ### Requirements -/

private theorem isAttribute_orOptional {value : Value} (whole : IsAttribute ids value) :
    IsAttribute ids (orOptional value) := by
  obtain ⟨field, rfl, keyed, shaped⟩ := whole
  have whole : IsAttribute ids (.record field) := ⟨field, rfl, keyed, shaped⟩
  rw [Value.record, orOptional]
  split
  · exact whole.put (attributeField_of_other (by decide) (by decide) (by decide) _) (keyed_of_not_object rfl)
  · exact whole

private theorem ensures_fillRequirements {attributes : Fields} (whole : AreAttributes ids attributes) :
    Ensures (fillRequirements attributes) fun filled => AreAttributes ids filled.1 := by
  have each : Ensures (fillRequirements attributes) fun _ => True := by
    unfold fillRequirements
    refine (Ensures.mapM (fun entry member => ?_) : Ensures _ (List.Forall₂ (fun _ _ => True) attributes)).bind
      fun _ _ => .pure trivial
    obtain ⟨fields, same, _, _⟩ := whole.each entry member
    rw [same, Value.record, Value.asFields, ok_bind]
    split <;> exact .pure trivial
  obtain ⟨filled, ran, _⟩ := each
  refine ⟨filled, ran, ?_⟩
  change AreAttributes ids filled.1
  rw [fillRequirements_ok ran]
  have treated : Entries.Related (fun _ value result => result = orOptional value) attributes
      (Entries.mapValues orOptional attributes) := Entries.related_mapValues fun _ _ => rfl
  refine whole.related treated fun _ value result same given => ?_
  rw [same]
  exact isAttribute_orOptional given

/-- Missing requirements are filled in, and an item stays an item. -/
theorem ensures_requireItem (key : Text) {item : Fields} (whole : IsItem kind ids item) :
    Ensures (requireItem kind key item) fun done => IsItem kind ids done.1 := by
  unfold requireItem
  cases found : Entries.get? "attributes" item with
  | none => exact .pure whole
  | some value =>
      obtain ⟨fields, rfl, attributes⟩ := (whole _ _ found).attributes rfl
      dsimp only
      rw [Value.record, Value.asFields, ok_bind]
      refine (ensures_fillRequirements attributes).bind fun filled known => ?_
      obtain ⟨filled, names⟩ := filled
      dsimp only
      split <;> exact .pure (whole.putAttributes known)

private theorem ensures_requireItems {items : Entries Fields} (whole : ∀ entry ∈ items, IsItem kind ids entry.2) :
    Ensures (requireItems kind items) fun done => ∀ entry ∈ done.1, IsItem kind ids entry.2 := by
  unfold requireItems
  refine (Ensures.mapM (fun entry member =>
      (ensures_requireItem entry.1 (whole entry member)).bind fun done known => .pure known) :
    Ensures _ (List.Forall₂ (fun _ done => IsItem kind ids done.1.2) items)).bind
      fun done related => .pure fun entry member => ?_
  obtain ⟨one, present, same⟩ := List.mem_map.mp member
  obtain ⟨_, _, held⟩ := exists_left_of_mem related present
  exact same ▸ held

/-- Missing requirements are filled in everywhere, and nothing but the items changes. -/
theorem ensures_requireAll (formed : Formed ids draft) :
    draft.requireAll.Ensures fun required => Formed ids required ∧
      ∃ profiles classes objects, required = { draft with profiles, classes, objects } := by
  obtain ⟨named, same, profiles⟩ := formed.profiles
  unfold requireAll
  rw [same]
  refine (Act.ensures_lift (.ok rfl : Ensures (Value.record named).asFields (named = ·))).bind ?_
  rintro _ rfl
  refine (Act.ensures_lift (.mapM fun entry member => ?_ :
    Ensures _ (List.Forall₂ (fun _ done => IsItem .profile (fun _ => True) done.1.2) named))).bind
      fun doneProfiles related => ?_
  · obtain ⟨item, shape, whole⟩ := profiles entry member
    rw [shape, Value.record, Value.asFields, ok_bind]
    exact (ensures_requireItem entry.1 whole).bind fun done known => .pure known
  refine (Act.ensures_lift (ensures_requireItems formed.classes)).bind fun classes eachClass => ?_
  obtain ⟨classes, inClasses⟩ := classes
  refine (Act.ensures_lift (ensures_requireItems formed.objects)).bind fun objects eachObject => ?_
  obtain ⟨objects, inObjects⟩ := objects
  have done : Formed ids { draft with
      profiles := .record (doneProfiles.map fun entry => (entry.1.1, Value.record entry.1.2)), classes, objects } :=
    { formed with
      profiles := by
        refine ⟨_, rfl, fun entry member => ?_⟩
        obtain ⟨one, present, same⟩ := List.mem_map.mp member
        obtain ⟨_, _, held⟩ := exists_left_of_mem related present
        exact ⟨one.1.2, by rw [← same], held⟩
      classes := eachClass
      objects := eachObject }
  dsimp only
  split
  · exact (Act.ensures_warn _).bind fun _ _ => Act.ensures_pure ⟨done, _, _, _, rfl⟩
  · exact Act.ensures_pure ⟨done, _, _, _, rfl⟩

/-! ### Finishing -/

private theorem isAttribute_overShared {marks : Text → Prop} (formed : Formed ids draft)
    (implied : ∀ id, ids id → marks id)
    (name : Text) {value : Value} (whole : IsAttribute marks value) :
    IsAttribute marks (match Entries.get? name draft.attributes with
      | some shared => Value.mergeInto shared.unshared value
      | none => value) := by
  cases found : Entries.get? name draft.attributes with
  | none => exact whole
  | some shared =>
      have known := ((formed.attributes.of_get? found).imp implied).copied
      have both : Value.mergeInto shared.unshared value = shared.unshared.merge value := by
        obtain ⟨fields, same, _, _⟩ := known
        obtain ⟨field, rfl, _, _⟩ := whole
        rw [same]
        rfl
      dsimp only
      rw [both]
      exact known.merge whole

/-- An attribute that is made to refer to the object that it means stays one. -/
theorem ensures_aim {marks : Text → Prop} (formed : Formed ids draft) (item : Fields) {field : Fields}
    (whole : IsAttribute marks (.record field)) {result : Value} (merged : IsAttribute marks result) :
    Ensures (do
      if (Entries.orNull "object_type" field).truthy then
        let scope ← extensionOf field item
        match ← Scope.find? draft.objects (Entries.orNull "object_type" field) (some scope) with
        | some key => return .record (← refer draft.objects key (← result.asFields))
        | none => return result
      else return result) (IsAttribute marks) := by
  have aimed : (Entries.orNull "object_type" field).isName = true := whole.orNull_name (by decide)
  split
  · refine (ensures_extensionOf whole item).bind fun scope _ => ?_
    refine (Scope.ensures_find? draft.objects aimed _).bind fun found known => ?_
    cases found with
    | none => exact .pure merged
    | some key =>
        obtain ⟨text, rfl, _⟩ := known key rfl
        obtain ⟨inner, rfl, keyedInner, shapedInner⟩ := merged
        have opened : (Value.record inner).asFields = .ok inner := rfl
        dsimp only
        rw [opened, ok_bind]
        refine (ensures_refer formed.objects text ⟨inner, rfl, keyedInner, shapedInner⟩).bind
          fun referred known => ?_
        exact .pure known.1
  · exact .pure merged

private theorem ensures_finishAttribute {marks : Text → Prop} (formed : Formed ids draft)
    (implied : ∀ id, ids id → marks id)
    (item : Fields) (name : Text) {value : Value} (whole : IsAttribute marks value) :
    Ensures (draft.finishAttribute item name value) (IsAttribute marks) := by
  have merged := isAttribute_overShared formed implied name whole
  obtain ⟨field, rfl, keyed, shaped⟩ := whole
  exact ensures_aim formed item ⟨field, rfl, keyed, shaped⟩ merged

private theorem ensures_finishItem {marks : Text → Prop} (formed : Formed ids draft) (implied : ∀ id, ids id → marks id)
    {item : Fields} (whole : IsItem kind marks item) : Ensures (draft.finishItem item) (IsItem kind marks) := by
  obtain ⟨opened, attributes⟩ := whole.attributesOf
  unfold finishItem
  rw [opened, ok_bind]
  refine (Ensures.mapEach fun entry member =>
    ensures_finishAttribute formed implied item entry.1 (attributes.each entry member)).bind fun finished related => ?_
  refine .pure (whole.putAttributes ⟨related.distinct attributes.distinct, fun entry member => ?_⟩)
  obtain ⟨_, _, held⟩ := related.mem_right member
  exact held

private theorem ensures_finishItems {marks : Text → Prop} (formed : Formed ids draft)
    (implied : ∀ id, ids id → marks id)
    {items : Entries Fields} (whole : ∀ entry ∈ items, IsItem kind marks entry.2) :
    Ensures (draft.finishItems items) fun results => ∀ entry ∈ results, IsItem kind marks entry.2 := by
  unfold finishItems
  refine (Ensures.mapEach fun entry member => ensures_finishItem formed implied (whole entry member)).imp ?_
  intro results related entry member
  obtain ⟨_, _, held⟩ := related.mem_right member
  exact held

/-- All attributes are finished, and nothing but the items changes. -/
theorem ensures_finish (formed : Formed ids draft) :
    Ensures draft.finish fun finished => Formed ids finished ∧
      ∃ profiles classes objects, finished = { draft with profiles, classes, objects } := by
  obtain ⟨named, same, profiles⟩ := formed.profiles
  have items : Ensures draft.profileItems fun items => ∀ entry ∈ items, IsItem .profile (fun _ => True) entry.2 := by
    unfold profileItems
    rw [same, Value.record, Value.asFields, ok_bind]
    have opened : ∀ entry ∈ named, Ensures entry.2.asFields (IsItem .profile fun _ => True) := by
      intro entry member
      obtain ⟨item, shape, whole⟩ := profiles entry member
      rw [shape]
      exact .ok whole
    refine (Ensures.mapEach opened).imp fun results related entry member => ?_
    obtain ⟨_, _, held⟩ := related.mem_right member
    exact held
  unfold finish
  refine (ensures_finishItems formed (fun _ => id) formed.classes).bind fun classes eachClass => ?_
  refine (ensures_finishItems formed (fun _ => id) formed.objects).bind fun objects eachObject => ?_
  refine items.bind fun items whole => ?_
  refine (ensures_finishItems formed (fun _ _ => trivial) whole).bind fun finished each => .pure ⟨?_, _, _, _, rfl⟩
  exact { formed with
    profiles := by
      refine ⟨_, rfl, fun entry member => ?_⟩
      obtain ⟨origin, present, shape⟩ := List.mem_map.mp member
      exact ⟨origin.2, by rw [← shape], each origin present⟩
    classes := eachClass
    objects := eachObject }

/-! ### Reading -/

private theorem ensures_addItem (group : Text) (links : Links) {entry : Text × Fields} (whole :
    IsItem kind ids entry.2) :
    Ensures (Links.addItem group links entry) fun _ => True := by
  obtain ⟨key, item⟩ := entry
  obtain ⟨opened, attributes⟩ := whole.attributesOf
  unfold Links.addItem
  dsimp only
  rw [opened, ok_bind]
  have linked : Ensures ((Entries.attributes item).foldlM (Links.addAttribute (Links.linkOf group key item)) links)
      fun _ => True := by
    refine Ensures.foldlM trivial fun links entry member _ => ?_
    obtain ⟨fields, same, keyed, shaped⟩ := attributes.each entry member
    have aimed : (Entries.orNull "object_type" fields).isName = true :=
      IsAttribute.orNull_name ⟨fields, rfl, keyed, shaped⟩ (by decide)
    obtain ⟨name, value⟩ := entry
    change value = _ at same
    unfold Links.addAttribute
    dsimp only
    rw [same, Value.record, Value.asFields, ok_bind]
    split
    · split
      · exact .pure trivial
      · rename_i unkeyed
        rcases name_cases aimed with null | ⟨text, told⟩
        · exact absurd (by rw [null]; rfl) unkeyed
        · exact absurd (by rw [told]; rfl) unkeyed
    · exact .pure trivial
  refine linked.bind fun links _ => ?_
  rw [whole.profiles_iterate, ok_bind]
  refine Ensures.foldlM trivial fun links profile member _ => ?_
  obtain ⟨text, rfl⟩ := whole.textList.text_of_mem member
  exact .ok trivial

private theorem ensures_ofDocument {item : Fields} (whole : IsItem kind ids item) :
    Ensures (Attribute.ofDocument (Entries.get? "attributes" item)) fun _ => True := by
  unfold Attribute.ofDocument
  cases found : Entries.get? "attributes" item with
  | none => exact .ok trivial
  | some value =>
      obtain ⟨fields, rfl, _⟩ := (whole _ _ found).attributes rfl
      cases fields <;> exact .ok trivial

private theorem ensures_ofFields (key : Text) {item : Fields} (whole : IsItem kind ids item) :
    Ensures (Entity.ofFields key kind item) fun _ => True := by
  have patchers : Ensures (Value.itemsOrNone (Entries.get? "_patched_by" item)) fun _ => True := by
    cases found : Entries.get? "_patched_by" item with
    | none => exact .ok trivial
    | some value =>
        obtain ⟨items, rfl⟩ := (whole _ _ found).patchers rfl
        cases items <;> exact .ok trivial
  have profiles : Ensures (Value.itemsOrNone (Entries.get? "profiles" item)) fun _ => True :=
    ⟨_, whole.textList.itemsOrNone, trivial⟩
  unfold Entity.ofFields
  exact profiles.bind fun _ _ => (ensures_ofDocument whole).bind fun _ _ => patchers.bind fun _ _ => .pure trivial

private theorem ensures_entities {items : Entries Fields} (whole : ∀ entry ∈ items, IsItem kind ids entry.2) :
    Ensures (items.mapM fun entry => do return (entry.1, ← Entity.ofFields entry.1 kind entry.2)) fun _ => True :=
  (Ensures.mapEach fun entry member => ensures_ofFields entry.1 (whole entry member)).imp fun _ _ => trivial

theorem ensures_graph (formed : Formed ids draft) : Ensures draft.graph fun _ => True := by
  obtain ⟨named, profiles, wholeProfiles⟩ := formed.profiles
  obtain ⟨listed, categories, wholeCategories⟩ := formed.categories
  have linked : Ensures (Links.ofItems draft.classes draft.objects) fun _ => True := by
    unfold Links.ofItems
    refine (Ensures.foldlM trivial fun links entry member _ =>
      ensures_addItem _ links (formed.classes entry member) : Ensures _ fun _ => True).bind fun links _ => ?_
    exact Ensures.foldlM trivial fun links entry member _ => ensures_addItem _ links (formed.objects entry member)
  have eachCategory : Ensures (listed.mapM fun entry => do return (entry.1, ← Category.ofValue entry.1 entry.2))
      fun _ => True := by
    refine (Ensures.mapEach fun entry member => ?_ : Ensures _ (Entries.Related (fun _ _ _ => True) listed)).imp
      fun _ _ => trivial
    obtain ⟨⟨fields, shape, _⟩, _⟩ := wholeCategories entry member
    rw [shape]
    exact .ok trivial
  have eachProfile : Ensures (named.mapM fun entry => do return (entry.1, ← Profile.ofValue entry.1 entry.2))
      fun _ => True := by
    refine (Ensures.mapEach fun entry member => ?_ : Ensures _ (Entries.Related (fun _ _ _ => True) named)).imp
      fun _ _ => trivial
    obtain ⟨item, shape, whole⟩ := wholeProfiles entry member
    rw [shape]
    exact (ensures_ofDocument whole).bind fun _ _ => .pure trivial
  unfold graph
  refine linked.bind fun links _ => ?_
  refine (ensures_entities formed.classes).bind fun classes _ => ?_
  refine (ensures_entities formed.objects).bind fun objects _ => ?_
  rw [categories, profiles]
  exact eachCategory.bind fun _ _ => eachProfile.bind fun _ _ => .pure trivial

end Draft

end EventSchema
