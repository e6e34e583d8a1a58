import EventSchema.Proofs.Draft.Formed
import EventSchema.Proofs.Graph.ClassUids

/-!
Every class of a formed draft is identified.

A category is an object with a number, so the uids of a class and of its events are numbers. The
enumerations that are written are objects of objects, and what they are written into are attributes.
-/

set_option autoImplicit false

namespace EventSchema

open Value

/-! ### Identifiers -/

def IsWhole (value : Value) : Prop := ∃ n : Int, value = .int n

namespace Uid

private theorem ensures_scope (factor m n : Int) : Ensures (scope factor (.int m) (.whole n)) IsWhole :=
  ⟨_, scope_whole (asNumber_of_whole rfl) n, _, rfl⟩

/-- The identifier that scopes a class is composed without a fault. -/
theorem ensures_categoryOfClass {extension category : Value}
    (asked : extension.isNull = true ∨ ∃ n : Int, extension = .int n) (whole : IsWhole category) :
    Ensures (categoryOfClass extension category) IsWhole := by
  obtain ⟨n, rfl⟩ := whole
  unfold categoryOfClass
  split
  · exact .pure ⟨n, rfl⟩
  · rename_i given
    obtain ⟨m, rfl⟩ := asked.resolve_left given
    rw [asNumber_of_whole rfl, ok_bind]
    split
    · exact .pure ⟨n, rfl⟩
    · rename_i small
      have below : (Number.whole n).below 100 = true := by
        simp only [Number.atLeast, decide_eq_true_eq] at small
        simp only [Number.below, decide_eq_true_eq]
        omega
      rw [category, asNumber_of_whole rfl, ok_bind, if_pos below]
      exact ensures_scope 100 m n

private theorem ensures_eventClass {category uid : Value} (whole : IsWhole category) {n : Int}
    (local_ : uid.whole? = some n) (short : n < 1000) : Ensures (eventClass category uid) IsWhole := by
  obtain ⟨m, rfl⟩ := whole
  have below : (Number.whole n).below 1000 = true := decide_eq_true short
  rw [eventClass, asNumber_of_whole local_, ok_bind, if_pos below]
  exact ensures_scope 1000 m n

private theorem ensures_activity {uid : Value} (whole : IsWhole uid) {n : Int} (short : n < 100) :
    Ensures (activity uid (.int n)) IsWhole := by
  obtain ⟨m, rfl⟩ := whole
  have below : (Number.whole n).below 100 = true := decide_eq_true short
  rw [activity, asNumber_of_whole rfl, ok_bind, if_pos below]
  exact ensures_scope 100 m n

end Uid

namespace Draft

variable {ids : Text → Prop} {draft : Draft}

private theorem ensures_localUid (key : Text) (item : Fields) :
    (localUid key item).Ensures fun own => ∃ n, own.whole? = some n ∧ n < 1000 := by
  have zero : ∃ n, (Value.int 0).whole? = some n ∧ n < 1000 := ⟨0, rfl, by decide⟩
  unfold localUid
  dsimp only
  split
  · rename_i n whole
    split
    · rename_i inside
      exact Act.ensures_pure ⟨n, whole, inside.2⟩
    · exact (Act.ensures_complain _).bind fun _ _ => Act.ensures_pure zero
  · exact (Act.ensures_complain _).bind fun _ _ => Act.ensures_pure zero

private theorem ensures_categoryOf (formed : Formed ids draft) {item : Fields}
    (named : (Entries.orNull "category" item).isName = true) :
    Ensures (categoryOf draft item) fun found => ∀ pair ∈ found, IsCategory pair.2 ∧ Keyed pair.2 := by
  obtain ⟨fields, same, each⟩ := formed.categories
  unfold categoryOf Scope.findIn
  have asked (text : Text) : ∃ known, (Value.text text).member draft.categories = .ok known :=
    ⟨_, by rw [same]; rfl⟩
  refine (Scope.ensures_findBy asked named _).bind fun found known => ?_
  cases found with
  | none => exact .pure fun _ impossible => by cases impossible
  | some key =>
      obtain ⟨text, rfl, present⟩ := known key rfl
      rw [same] at present ⊢
      obtain ⟨category, found⟩ := Option.isSome_iff_exists.mp (Except.ok.inj present)
      dsimp only
      rw [Value.record, Value.asFields, ok_bind, Value.lookup?, ok_bind, found, Value.ofOption]
      refine .pure fun pair member => ?_
      split at member
      · cases member
        exact each _ (Entries.mem_of_get? found)
      · cases member

/-! ### Writing attributes -/

private theorem ensures_setIn {name key : Text} {value : Value} {attributes : Fields} (whole :
    AreAttributes ids attributes)
    (field : AttributeField ids key value) (keyed : Keyed value) :
    Ensures (setIn name key value attributes) (AreAttributes ids) := by
  obtain ⟨fields, same, keyedFields, shaped⟩ := whole.orEmpty name
  have known : IsAttribute ids (.record fields) := ⟨fields, rfl, keyedFields, shaped⟩
  unfold setIn
  rw [same, Value.record, Value.withField, ok_bind]
  exact .pure (whole.put (known.put field keyed))

private theorem areAttributes_setSource {name : Text} (key : Text) {attributes : Fields} (whole :
    AreAttributes ids attributes) :
    AreAttributes ids (setSource name key attributes) := by
  unfold setSource
  split
  · rename_i mark fields found
    obtain ⟨_, same, keyed, shaped⟩ := whole.of_get? found
    cases same
    have known : IsAttribute ids (.record fields) := ⟨fields, rfl, keyed, shaped⟩
    exact whole.put (known.putNew (attributeField_of_name (by decide) rfl) (keyed_of_not_object rfl))
  · exact whole

/-! ### Events -/

def IsEnumeration (fields : Fields) : Prop := (Value.record fields).isSection = true ∧ Keyed (.record fields)

private theorem isEnumeration_nil : IsEnumeration [] := ⟨rfl, keyed_nil⟩

theorem IsEnumeration.put {fields : Fields} {entry : Value} (whole : IsEnumeration fields)
    (object : entry.isObject = true) (keyed : Keyed entry) (key : Text) :
    IsEnumeration (Entries.put key entry fields) := ⟨isSection_put whole.1 key object, whole.2.put keyed key⟩

private theorem attributeField_of_enumeration {fields : Fields} (whole : IsEnumeration fields) :
    AttributeField ids "enum" (.record fields) := attributeField_of_enum whole.1

private theorem ensures_typeEntry (caption : Value) {detail : Value} (object : detail.isObject = true)
    (keyed : Keyed detail) :
    Ensures (typeEntry caption detail) fun entry => entry.isObject = true ∧ Keyed entry := by
  cases detail with
  | object mark fields =>
      have copy := keyed.unshared
      rw [unshared] at copy
      unfold typeEntry
      rw [unshared, Value.asFields, ok_bind]
      exact .pure ⟨rfl, Keyed.put copy (keyed_of_not_object rfl) _⟩
  | null | bool _ | int _ | float _ | text _ | array _ => cases object

private theorem ensures_addActivity (key : Text) {uid : Value} (whole : IsWhole uid) (caption : Value) {types : Fields}
    (listed : IsEnumeration types) {activity : Text × Value} (object : activity.2.isObject = true)
    (keyed : Keyed activity.2) : (addActivity key uid caption types activity).Ensures IsEnumeration := by
  unfold addActivity
  cases activity.1.parseInt? with
  | none => exact (Act.ensures_warn _).bind fun _ _ => Act.ensures_pure listed
  | some n =>
      dsimp only
      split
      · rename_i inside
        refine (Act.ensures_lift (ensures_typeEntry caption object keyed)).bind fun entry told => ?_
        refine (Act.ensures_lift (Uid.ensures_activity whole inside.2)).bind fun id _ => ?_
        exact Act.ensures_pure (listed.put told.1 told.2 _)
      · exact (Act.ensures_warn _).bind fun _ _ => Act.ensures_pure listed

def EnumerationOrNull (value : Value) : Prop :=
  value = .null ∨ ∃ mark fields, value = .object mark fields ∧ IsEnumeration fields

private theorem enumeration_cases {fields : Fields} (whole : IsAttribute ids (.record fields)) :
    EnumerationOrNull (Entries.orNull "enum" fields) := by
  obtain ⟨keyed, shaped⟩ := whole.fields
  unfold Entries.orNull Entries.getOr
  cases found : Entries.get? "enum" fields with
  | none => exact Or.inl rfl
  | some value =>
      have listed := (shaped _ _ found).enum rfl
      cases value with
      | object mark enumeration =>
          exact Or.inr ⟨mark, enumeration, rfl, listed, keyed_object.mp (keyed.of_get? found)⟩
      | null | bool _ | int _ | float _ | text _ | array _ => cases listed

/-- The types of events are gone through, if there are any, before whatever is done with them. -/
theorem ensures_gatherTypes {key : Text} {uid caption enumeration : Value} {next : Fields → Act Fields}
    {property : Fields → Prop} (whole : IsWhole uid)
    (listed : EnumerationOrNull enumeration)
    (rest : ∀ types, IsEnumeration types → (next types).Ensures property) :
    (if enumeration.truthy = true then do
      let fields ← enumeration.asFields
      let types ← fields.foldlM (addActivity key uid caption) []
      next types
    else do
      warn (.noActivities key)
      let types ← pure []
      next types : Act Fields).Ensures property := by
  split
  · rename_i given
    rcases listed with rfl | ⟨mark, fields, rfl, section_⟩
    · cases given
    · refine (Act.ensures_lift (.ok rfl : Ensures (Value.object mark fields).asFields (fields = ·))).bind ?_
      rintro _ rfl
      have each (types : Fields) (activity : Text × Value) (member : activity ∈ fields) (known : IsEnumeration types) :
          (addActivity key uid caption types activity).Ensures IsEnumeration :=
        ensures_addActivity key whole caption known (isSection_iff.mp section_.1 activity member)
          (section_.2.of_mem member)
      exact (Act.ensures_foldlM isEnumeration_nil each).bind rest
  · exact (Act.ensures_warn _).bind fun _ _ => (Act.ensures_pure isEnumeration_nil).bind rest

private theorem ensures_listTypes (key : Text) {uid : Value} (whole : IsWhole uid)
    (caption : Value) {attributes : Fields}
    (given : AreAttributes ids attributes) : (listTypes key uid caption attributes).Ensures (AreAttributes ids) := by
  have named (name : Text) : Entries.orNull name attributes =
    .null ∨ IsAttribute ids (Entries.orNull name attributes) := by
    unfold Entries.orNull Entries.getOr
    cases found : Entries.get? name attributes with
    | none => exact Or.inl rfl
    | some value => exact Or.inr (given.of_get? found)
  have activities : Value.orElse (Entries.get? "activity_id" attributes) (Entries.orNull "disposition_id" attributes) =
      .null ∨ IsAttribute ids
        (Value.orElse (Entries.get? "activity_id" attributes) (Entries.orNull "disposition_id" attributes)) := by
    cases found : Entries.get? "activity_id" attributes with
    | none => exact named _
    | some value =>
        rw [Value.orElse]
        split
        · exact Or.inr (given.of_get? found)
        · exact named _
  have rest (types : Fields) (listed : IsEnumeration types) : (do
      let unknown ← (Uid.activity uid (.int 0) : Except Fault Value)
      let types := Entries.put unknown.shown
        (.record [("caption", .text (caption.shown ++ ": Unknown"))]) types
      return setSource "type_uid" key (← setIn "type_uid" "enum" (.record types) attributes) : Act Fields).Ensures
        (AreAttributes ids) := by
    refine (Act.ensures_lift (Uid.ensures_activity whole (by decide))).bind fun unknown _ => ?_
    have entry : Keyed (.record [("caption", .text (caption.shown ++ ": Unknown"))]) :=
      keyed_nil.put (keyed_of_not_object rfl) "caption"
    have all := listed.put rfl entry unknown.shown
    refine (Act.ensures_lift (ensures_setIn given (attributeField_of_enumeration all) all.2)).bind fun
      changed known => ?_
    exact Act.ensures_pure (areAttributes_setSource key known)
  unfold listTypes
  dsimp only
  split
  · rename_i truthy
    rcases activities with same | ⟨fields, same, keyed, shaped⟩
    · rw [same] at truthy
      cases truthy
    · rw [same]
      refine (Act.ensures_lift (.ok rfl : Ensures (Value.record fields).asFields (fields = ·))).bind ?_
      rintro _ rfl
      exact (Act.ensures_pure (enumeration_cases ⟨fields, rfl, keyed, shaped⟩)).bind fun _ listed =>
        ensures_gatherTypes whole listed rest
  · have nothing : (pure .null : Act Value).Ensures EnumerationOrNull := Act.ensures_pure (Or.inl rfl)
    exact nothing.bind fun _ listed => ensures_gatherTypes whole listed rest

private theorem ensures_listClass (key : Text) (uid : Value) {caption description : Value} {attributes : Fields}
    (captioned : Keyed caption) (described : Keyed description) (given : AreAttributes ids attributes) :
    Ensures (listClass key uid caption description attributes) (AreAttributes ids) := by
  have entry : Keyed (.record [("caption", caption), ("description", description)]) :=
    (keyed_nil.put captioned "caption").put described "description"
  have enumeration := isEnumeration_nil.put rfl entry uid.shown
  unfold listClass
  refine (ensures_setIn given (attributeField_of_enumeration enumeration) enumeration.2).bind fun changed known => ?_
  refine ensures_setIn (areAttributes_setSource key known) ?_ (keyed_of_not_object rfl)
  exact attributeField_of_other (by decide) (by decide) (by decide) _

/-- The attributes of a class get the uid and the name of its category. -/
theorem ensures_listCategory (key : Text) (uid : Value) {category : Value} {attributes : Fields}
    (known : IsCategory category) (keyed : Keyed category) (given : AreAttributes ids attributes) :
    Ensures (listCategory key uid category attributes) (AreAttributes ids) := by
  obtain ⟨fields, rfl, _⟩ := known
  have enumeration := isEnumeration_nil.put (isObject_unshared _) keyed.unshared uid.shown
  unfold listCategory
  refine (ensures_setIn given (attributeField_of_enumeration enumeration) enumeration.2).bind fun changed known => ?_
  rw [Value.record, Value.asFields, ok_bind]
  refine ensures_setIn (areAttributes_setSource key known) ?_ (keyed_of_not_object rfl)
  exact attributeField_of_other (by decide) (by decide) (by decide) _

private theorem ensures_reportCategory (key : Text) (name : Value) {item : Fields} (whole :
    IsItem .eventClass ids item) :
    (reportCategory key name item).Ensures (IsItem .eventClass ids) := by
  unfold reportCategory
  split
  · exact (Act.ensures_note _).bind fun _ _ =>
      Act.ensures_pure (whole.put (itemField_of_other (by decide) _))
  · split
    · split
      · exact (Act.ensures_warn _).bind fun _ _ => Act.ensures_pure whole
      · exact Act.ensures_pure whole
    · exact (Act.ensures_warn _).bind fun _ _ => Act.ensures_pure whole

/-! ### Classes -/

/-- The uid of a class is composed, and its attributes list it, before whatever is done with both. -/
theorem ensures_numbered {key : Text} {caption number : Value} {item : Fields} {next : Value → Fields → Act Fields}
    {property : Fields → Prop} (whole : IsItem .eventClass ids item) (captioned : Keyed caption)
    (extended : (Entries.orNull "extension_id" item).isNull = true ∨ ∃ n : Int,
      Entries.orNull "extension_id" item = .int n)
    (counted : IsWhole number)
    (rest : ∀ uid attributes, AreAttributes ids attributes → (next uid attributes).Ensures property) : (do
      let own ← localUid key item
      let outer ← (Uid.categoryOfClass (Entries.orNull "extension_id" item) number : Except Fault Value)
      let uid ← (Uid.eventClass outer own : Except Fault Value)
      let attributes ← listTypes key uid caption (← attributesOf (Entries.put "uid" uid item))
      let attributes ← (listClass key uid caption
        (Entries.getOr "description" (Entries.put "uid" uid item) (.text ∅)) attributes : Except Fault Fields)
      next uid attributes : Act Fields).Ensures property := by
  refine (ensures_localUid key item).bind fun own short => ?_
  obtain ⟨n, local_, short⟩ := short
  refine (Act.ensures_lift (Uid.ensures_categoryOfClass extended counted)).bind fun outer scoping => ?_
  refine (Act.ensures_lift (Uid.ensures_eventClass scoping local_ short)).bind fun uid composed => ?_
  have numbered := whole.putOther "uid" (by decide) uid
  obtain ⟨opened, attributes⟩ := numbered.attributesOf
  obtain ⟨description, described⟩ : ∃ text : Text,
      Entries.getOr "description" (Entries.put "uid" uid item) (.text ∅) = .text text := numbered.label (by decide) ∅
  refine (Act.ensures_lift (⟨_, opened, attributes⟩ : Ensures _ (AreAttributes ids))).bind fun given known => ?_
  refine (ensures_listTypes key composed caption known).bind fun typed known => ?_
  rw [described]
  refine (Act.ensures_lift (ensures_listClass key uid captioned (keyed_of_not_object rfl) known)).bind ?_
  exact fun classed known => rest uid classed known

private theorem ensures_identify (formed : Formed ids draft)
    (key : Text) {item : Fields} (whole : IsItem .eventClass ids item)
    (named : Named item) : (identify draft key item).Ensures (IsItem .eventClass ids) := by
  have start : IsItem .eventClass ids (Entries.putNew "attributes" (.record []) item) := whole.putNewAttributes
  have kept (name : Text) (other : name ≠ "attributes") :
      Entries.orNull name (Entries.putNew "attributes" (.record []) item) = Entries.orNull name item := by
    unfold Entries.orNull Entries.getOr
    rw [Entries.get?_putNew, if_neg fun both => other both.1]
  have named' : (Entries.orNull "category" (Entries.putNew "attributes" (.record []) item)).isName = true := by
    rw [kept "category" (by decide)]
    exact named.category
  have extended : (Entries.orNull "extension_id" (Entries.putNew "attributes" (.record []) item)).isNull = true ∨
      ∃ n : Int, Entries.orNull "extension_id" (Entries.putNew "attributes" (.record []) item) = .int n := by
    rw [kept "extension_id" (by decide)]
    exact named.scope
  obtain ⟨caption, captioned⟩ : ∃ text : Text, Entries.getOr "caption" item (.text "UNKNOWN") = .text text :=
    whole.label (by decide) _
  unfold identify
  dsimp only
  rw [captioned]
  refine (Act.ensures_lift (ensures_categoryOf formed named')).bind fun category known => ?_
  cases category with
  | none =>
      refine (Act.ensures_pure rfl).bind ?_
      rintro _ rfl
      refine ensures_numbered start (keyed_of_not_object rfl) extended ⟨0, rfl⟩ fun uid attributes known => ?_
      exact ensures_reportCategory key _ ((start.putOther "uid" (by decide) uid).putAttributes known)
  | some pair =>
      obtain ⟨categoryKey, category⟩ := pair
      obtain ⟨⟨fields, rfl, n, counted⟩, keyed⟩ := known _ rfl
      refine (Act.ensures_lift (.ok rfl : Ensures (Value.record fields).asFields (fields = ·))).bind ?_
      rintro _ rfl
      refine (Act.ensures_pure rfl).bind ?_
      rintro _ rfl
      have placed := (start.putOther "category" (by decide) categoryKey).putOther "category_name" (by decide)
        (Entries.orNull "caption" fields)
      dsimp only
      rw [counted]
      refine ensures_numbered placed (keyed_of_not_object rfl) ?_ ⟨n, rfl⟩ fun uid attributes known => ?_
      · rw [Entries.orNull_put_of_ne (by decide), Entries.orNull_put_of_ne (by decide)]
        exact extended
      · refine (Act.ensures_lift (ensures_listCategory key _ ⟨fields, rfl, n, counted⟩ keyed known)).bind ?_
        intro listed known
        refine Act.ensures_pure (IsItem.putAttributes ?_ known)
        exact (placed.putOther "uid" (by decide) uid).putOther "category_uid" (by decide) _

/-- All classes are identified, and nothing else changes. -/
theorem ensures_identifyClasses (formed : Formed ids draft) (named : ∀ entry ∈ draft.classes, Named entry.2) :
    draft.identifyClasses.Ensures fun identified => Formed ids identified ∧
      ∃ classes, identified = { draft with classes } := by
  unfold identifyClasses
  have each : ∀ entry ∈ draft.classes, (identify draft entry.1 entry.2).Ensures (IsItem .eventClass ids) :=
    fun entry member => ensures_identify formed entry.1 (formed.classes entry member) (named entry member)
  refine (Act.ensures_mapEach each).bind fun classes related => Act.ensures_pure ⟨?_, classes, rfl⟩
  exact { formed with
    classes := fun entry member => by
      obtain ⟨_, _, whole⟩ := related.mem_right member
      exact whole }

end Draft

end EventSchema
