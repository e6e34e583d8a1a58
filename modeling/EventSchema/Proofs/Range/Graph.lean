import EventSchema.Proofs.Graph.ClassUids
import EventSchema.Proofs.Range.Basic

/-!
Identifiers of classes and activities are in their ranges.

The uid of a class and the keys of its activities are checked before they are scoped: one out of its
range is told of and replaced or left out. Only the category of a class is taken as it is, and its uid
is either short or scoped already, unless it is no number at all. So the way from definitions to their
graph never ends with an identifier out of its range, but for a category whose uid is not a number.
-/

set_option autoImplicit false

namespace EventSchema

variable {α β : Type} {allowed : Fault → Prop}

/-! ### The dictionary and observables -/

namespace Draft

@[simp]
theorem confined_attributesOf (item : Fields) : Confined allowed (attributesOf item) := by
  simp [attributesOf]

@[simp]
theorem confined_holds (container : Value) (key : Text) : Confined allowed (holds container key) := by
  simp [holds]

@[simp]
theorem confined_datetimeEnabled (draft : Draft) : Confined allowed draft.datetimeEnabled := by
  simp [datetimeEnabled]

@[simp]
theorem confined_extensionOf (field item : Fields) : Confined allowed (extensionOf field item) := by
  unfold extensionOf
  extract_lets source
  cases source <;> simp

@[simp]
theorem confined_refer (objects : Entries Fields) (key : Value) (field : Fields) :
    Confined allowed (refer objects key field) := by simp [refer]

@[simp]
theorem confined_setIn (name key : Text) (value : Value) (attributes : Fields) :
    Confined allowed (setIn name key value attributes) := by simp [setIn]

@[simp]
theorem confined_addObservable (known : List Observable) (id caption description : Value) (kind context : Text) :
    Confined allowed (addObservable known id caption description kind context) := by
  unfold addObservable
  extract_lets key
  split <;> simp

@[simp]
theorem confined_observablesOfDictionary (kind : Text) (known : List Observable) (entries : Fields) :
    Confined allowed (observablesOfDictionary kind known entries) :=
  Confined.foldlM fun known entry => by simp

@[simp]
theorem confined_captionFrom (items : Fields) (origin : Text) (seen : List Text) (key : Text) :
    Confined allowed (captionFrom items origin seen key) := by
  induction seen, key using captionFrom.induct items with
  | case1 seen key done =>
      rw [captionFrom, dif_pos done]
      simp
  | case2 seen key further present ih =>
      rw [captionFrom, dif_neg further, dif_pos present]
      extract_lets item
      simp only [Confined.bind_iff, confined_holds, true_and]
      intro known _
      split
      · simp
      · simp only [Confined.bind_iff, Value.confined_asFields, Scope.confined_find?, true_and]
        intro fields _ parent _
        split
        · exact ih _
        · simp
  | case3 seen key further missing =>
      rw [captionFrom, dif_neg further, dif_neg missing]
      simp

@[simp]
theorem confined_captionOf (items : Fields) (key : Text) : Confined allowed (captionOf items key) := by
  simp [captionOf]

@[simp]
theorem confined_observablesOfItem (kind : ItemKind) (items : Fields) (known : List Observable) (key : Text)
    (item : Value) : Confined allowed (observablesOfItem kind items known key item) := by
  unfold observablesOfItem
  refine Confined.bind_iff.mpr ⟨confined_captionOf items key, fun caption _ => ?_⟩
  extract_lets title specific list
  have each (known : List Observable) (part : Text) (id : Value) (context : Text) :
      Confined allowed (specific known part id context) := confined_addObservable _ _ _ _ _ _
  have listed (known : List Observable) : Confined allowed (list known) := by
    unfold list
    refine Confined.bind_iff.mpr ⟨item.confined_asFields, fun fields _ => ?_⟩
    refine Confined.bind_iff.mpr ⟨Value.confined_fieldsOrNone _, fun attributes _ => ?_⟩
    refine Confined.bind_iff.mpr ⟨Confined.foldlM fun known entry => ?_, fun known _ => ?_⟩
    · split
      · split <;> simp [each]
      · simp
    · refine Confined.bind_iff.mpr ⟨Value.confined_fieldsOrNone _, fun paths _ => ?_⟩
      exact Confined.foldlM fun known entry => each known entry.1 entry.2 _
  simp [listed]

@[simp]
theorem confined_observablesOfItems (kind : ItemKind) (known : List Observable) (items : Value) :
    Confined allowed (observablesOfItems kind known items) := by
  simp [observablesOfItems, Confined.foldlM]

@[simp]
theorem confined_enumerate (observables : List Observable) (enumeration : Value) :
    Confined allowed (enumerate observables enumeration) :=
  Confined.foldlM fun enumeration o => by simp

@[simp]
theorem confined_typeEntry (caption detail : Value) : Confined allowed (typeEntry caption detail) := by
  simp [typeEntry]

@[simp]
theorem confined_datetimeSibling? (types : Fields) (entry : Text × Value) :
    Confined allowed (datetimeSibling? types entry) := by simp [datetimeSibling?]

/-! ### Profiles and attributes -/

@[simp]
theorem confined_objectTypeOf (draft : Draft) (entry : Text × Value) :
    Confined allowed (draft.objectTypeOf entry) := by simp [objectTypeOf]

@[simp]
theorem confined_reach (draft : Draft) (reached : Entries Value) (todo : List (Text × Value)) :
    Confined allowed (draft.reach reached todo) := by
  induction reached, todo using reach.induct draft with
  | case1 reached => simp [reach]
  | case2 reached entry rest skip enter =>
      rw [reach]
      refine Confined.bind_iff.mpr ⟨draft.confined_objectTypeOf entry, fun type _ => ?_⟩
      split
      · exact skip
      · split
        · rename_i key _ _
          split
          · exact skip
          · rename_i fresh
            split
            · rename_i present
              extract_lets object
              split
              · rename_i fault failed
                exact failed ▸ confined_attributesOf object
              · rename_i attributes known
                exact enter key fresh present attributes known
            · exact skip
        · split
          · exact skip
          · simp

@[simp]
theorem confined_typeOf (draft : Draft) (name : Text) (field : Fields) :
    Confined allowed (draft.typeOf name field) := by simp [typeOf]

@[simp]
theorem confined_siblingOf? (draft : Draft) (attributes : Fields) (entry : Text × Value) :
    Confined allowed (draft.siblingOf? attributes entry) := by simp [siblingOf?]

@[simp]
theorem confined_addSiblings (draft : Draft) (item : Fields) : Confined allowed (draft.addSiblings item) := by
  simp [addSiblings, Confined.filterMapM]

@[simp]
theorem confined_addSiblingsToEach (draft : Draft) (items : Entries Fields) :
    Confined allowed (draft.addSiblingsToEach items) := Confined.mapM fun entry _ => by simp

@[simp]
theorem confined_addDatetimeSiblings (draft : Draft) : Confined allowed draft.addDatetimeSiblings := by
  simp [addDatetimeSiblings]

@[simp]
theorem confined_fillRequirements (attributes : Fields) : Confined allowed (fillRequirements attributes) := by
  simp [fillRequirements, Confined.mapM]

@[simp]
theorem confined_requireItem (kind : ItemKind) (key : Text) (item : Fields) :
    Confined allowed (requireItem kind key item) := by
  unfold requireItem
  split <;> simp

@[simp]
theorem confined_requireItems (kind : ItemKind) (items : Entries Fields) :
    Confined allowed (requireItems kind items) := by
  simp [requireItems, Confined.mapM]

@[simp]
theorem confined_profileItems (draft : Draft) : Confined allowed draft.profileItems := by
  simp [profileItems, Confined.mapM]

@[simp]
theorem confined_finishAttribute (draft : Draft) (item : Fields) (name : Text) (value : Value) :
    Confined allowed (draft.finishAttribute item name value) := by
  unfold finishAttribute
  extract_lets merged
  refine Confined.bind_iff.mpr ⟨value.confined_asFields, fun field _ => ?_⟩
  extract_lets type
  split
  · refine Confined.bind_iff.mpr ⟨confined_extensionOf _ _, fun scope _ => ?_⟩
    refine Confined.bind_iff.mpr ⟨Scope.confined_find? _ _ _, fun key _ => ?_⟩
    cases key <;> simp
  · simp

@[simp]
theorem confined_finishItem (draft : Draft) (item : Fields) : Confined allowed (draft.finishItem item) := by
  simp [finishItem, Confined.mapM]

@[simp]
theorem confined_finishItems (draft : Draft) (items : Entries Fields) :
    Confined allowed (draft.finishItems items) := Confined.mapM fun entry _ => by simp

@[simp]
theorem confined_finish (draft : Draft) : Confined allowed draft.finish := by simp [finish]

end Draft

/-! ### Links -/

namespace Links

@[simp]
theorem confined_addAttribute (link : Link) (links : Links) (entry : Text × Value) :
    Confined allowed (addAttribute link links entry) := by simp [addAttribute]

@[simp]
theorem confined_addProfile (link : Link) (links : Links) (profile : Value) :
    Confined allowed (addProfile link links profile) := by simp [addProfile]

@[simp]
theorem confined_addItem (group : Text) (links : Links) (entry : Text × Fields) :
    Confined allowed (addItem group links entry) := by
  simp [addItem, Confined.foldlM]

@[simp]
theorem confined_ofItems (classes objects : Entries Fields) : Confined allowed (ofItems classes objects) := by
  simp [ofItems, Confined.foldlM]

end Links

/-! ### Lines of items -/

namespace Lineage

@[simp]
theorem confined_findParent (items : Fields) (key : Text) (item : Value) :
    Confined allowed (findParent items key item) := by
  unfold findParent
  refine Confined.bind_iff.mpr ⟨item.confined_asFields, fun fields _ => ?_⟩
  split
  · simp
  · extract_lets slash named
    have direct (done : PUnit) : Confined allowed (named done) := by simp [named]
    split
    · simp
    · split <;> simp [direct]

@[simp]
theorem confined_standalone (key : Text) (item : Fields) : Confined allowed (standalone key item) := by
  simp [standalone]

@[simp]
theorem confined_takeField (parent taken : Fields) (key : Text) (value : Value) :
    Confined allowed (takeField parent taken key value) := by
  unfold takeField
  split
  · simp
  · split
    · simp
    · split
      · split
        · simp
        · simp
      · simp

@[simp]
theorem confined_override (key : Text) (inherited : Value) (name : Text) (value : Value) :
    Confined allowed (override key inherited name value) := by
  unfold override
  refine Confined.bind_iff.mpr ⟨inherited.confined_asFields, fun fields _ => ?_⟩
  split <;> simp

@[simp]
theorem confined_descend (kind : ItemKind) (key : Text) (parent item : Fields) :
    Confined allowed (descend kind key parent item) := by
  cases kind <;> simp [descend, Confined.foldlM]

namespace Flattening

variable {α β : Type} {memo : Entries Fields} {run : Run}

@[simp]
theorem confined_pure (value : α) : Confined allowed (outcome (pure value) memo run).1 := Confined.ok value

@[simp]
theorem confined_lift_iff {computation : Except Fault α} :
    Confined allowed (outcome (liftM computation) memo run).1 ↔ Confined allowed computation := by
  rw [outcome_lift]

@[simp]
theorem confined_act_iff {act : Act α} :
    Confined allowed (outcome (liftM act) memo run).1 ↔ Confined allowed (act.outcome run).1 := by
  rw [outcome_act]

@[simp]
theorem confined_throw_iff {fault : Fault} : Confined allowed (outcome (throw fault : Flattening α) memo run).1 ↔
    fault.isSingular = true → allowed fault := by
  rw [outcome_throw]
  exact Confined.error_iff

/-- A walk is in range if its first step is and what comes after it. -/
@[simp]
theorem confined_bind_iff {walk : Flattening α} {next : α → Flattening β} :
    Confined allowed (outcome (walk >>= next) memo run).1 ↔ Confined allowed (outcome walk memo run).1 ∧
      ∀ value kept after, outcome walk memo run = (.ok value, kept, after) →
        Confined allowed (outcome (next value) kept after).1 := by
  rw [outcome_bind]
  cases outcome walk memo run with
  | mk ended rest =>
      obtain ⟨kept, after⟩ := rest
      cases ended <;> simp

theorem confined_mapM {walk : α → Flattening β} {items : List α}
    (each : ∀ item memo run, Confined allowed (outcome (walk item) memo run).1) :
    Confined allowed (outcome (items.mapM walk) memo run).1 := by
  induction items generalizing memo run with
  | nil => exact confined_pure []
  | cons head rest ih =>
      rw [List.mapM_cons]
      refine confined_bind_iff.mpr ⟨each head memo run, fun value kept after _ => ?_⟩
      exact confined_bind_iff.mpr ⟨ih, fun _ _ _ _ => confined_pure _⟩

end Flattening

@[simp]
theorem confined_flatten (kind : ItemKind) (items : Fields) (way : List Text) (key : Text) (memo : Entries Fields)
    (run : Run) : Confined allowed ((flatten kind items way key).outcome memo run).1 := by
  induction way, key using flatten.induct items generalizing memo run with
  | case1 way key ih =>
      rw [flatten]
      refine Flattening.confined_bind_iff.mpr ⟨Confined.ok _, fun known kept after _ => ?_⟩
      split
      · simp
      · split
        · simp
        · split
          · rename_i fresh present
            refine Flattening.confined_bind_iff.mpr ⟨by simp, fun fields kept after _ => ?_⟩
            extract_lets keep
            have kept (flat : Fields) (memo : Entries Fields) (run : Run) :
                Confined allowed ((keep flat).outcome memo run).1 := Confined.ok _
            split
            · simp [kept]
            · split
              · simp [kept]
              · refine Flattening.confined_bind_iff.mpr ⟨by simp, fun parent memo after _ => ?_⟩
                cases parent with
                | none => simp [kept]
                | some parent => simp [kept, ih fresh present parent]
          · simp

@[simp]
theorem confined_flattenAll (kind : ItemKind) (items : Fields) (run : Run) :
    Confined allowed ((flattenAll kind items).outcome run).1 := by
  rw [outcome_flattenAll]
  exact Flattening.confined_mapM fun key memo run =>
    Flattening.confined_bind_iff.mpr ⟨by simp, fun _ _ _ _ => Flattening.confined_pure _⟩

end Lineage

/-! ### Identifiers -/

def RangeFault.NotANumber : RangeFault → Prop
  | .category (.float x) => x.isNaN = true
  | _ => False

@[simp]
theorem Value.confined_asNumber (v : Value) : Confined allowed v.asNumber := by
  unfold asNumber
  split
  · simp
  · split <;> simp

namespace Number

@[simp]
theorem confined_asDouble (n : Number) : Confined allowed n.asDouble := by
  unfold asDouble
  split
  · simp
  · split <;> simp

@[simp]
theorem confined_combine (onWhole : Int → Int → Int) (onDouble : Double → Double → Double) (a b : Number) :
    Confined allowed (combine onWhole onDouble a b) := by
  unfold combine
  split <;> simp

end Number

namespace Uid

@[simp]
theorem confined_scope (factor : Int) (outer : Value) (inner : Number) :
    Confined allowed (scope factor outer inner) := by simp [scope, Number.mul, Number.add]

private theorem confined_eventClass {uid : Value} {n : Int} (number : uid.asNumber = .ok (.whole n)) (short : n < 1000)
    (category : Value) : Confined allowed (eventClass category uid) := by
  simp [eventClass, number, Number.below, short]

private theorem confined_activity {n : Int} (short : n < 100) (uid : Value) :
    Confined allowed (activity uid (.int n)) := by
  simp [activity, (asNumber_of_whole rfl : (Value.int n).asNumber = _), Number.below, short]

theorem confined_category {extension category : Value}
    (long : ∀ number, category.asNumber = .ok number → number.below 100 = false →
      allowed (.range (.category category))) :
    Confined allowed (Uid.category extension category) := by
  refine Confined.bind_iff.mpr ⟨category.confined_asNumber, fun number known => ?_⟩
  cases short : number.below 100 with
  | true => simp
  | false => simpa [short] using long number known short

private theorem eq_float_of_asNumber {v : Value} {x : Double} (number : v.asNumber = .ok (.double x)) : v =
    .float x := by
  cases whole : v.whole? with
  | some n =>
      rw [asNumber_of_whole whole] at number
      cases number
  | none =>
      cases v with
      | float y =>
          cases number
          rfl
      | null | bool _ | int _ | text _ | array _ | object _ _ => simp [Value.asNumber, whole] at number

/-- A number that is neither short nor scoped already is none. -/
theorem confined_categoryOfClass {category : Value}
    (nan : (RangeFault.category category).NotANumber → allowed (.range (.category category))) (extension : Value) :
    Confined allowed (categoryOfClass extension category) := by
  unfold categoryOfClass
  split
  · simp
  · refine Confined.bind_iff.mpr ⟨category.confined_asNumber, fun number known => ?_⟩
    split
    · simp
    · rename_i unscoped
      refine confined_category fun other same long => nan ?_
      rw [known, Except.ok.injEq] at same
      subst same
      cases number with
      | whole n =>
          simp only [Number.atLeast, decide_eq_true_eq] at unscoped
          simp only [Number.below, decide_eq_false_iff_not] at long
          omega
      | double x =>
          rw [eq_float_of_asNumber known]
          change x.isNaN = true
          simpa [Number.atLeast, show x.ltInt 100 = false from long] using unscoped

end Uid

namespace Draft

variable {run : Run}

@[simp]
theorem confined_categoryOf (draft : Draft) (item : Fields) : Confined allowed (draft.categoryOf item) := by
  refine Confined.bind_iff.mpr ⟨Scope.confined_findIn _ _ _, fun found _ => ?_⟩
  cases found <;> simp

@[simp]
theorem confined_localUid (key : Text) (item : Fields) : Confined allowed ((localUid key item).outcome run).1 := by
  unfold localUid
  extract_lets uid
  split <;> simp

@[simp]
theorem confined_addActivity (key : Text) (uid caption : Value) (types : Fields) (activity : Text × Value) :
    Confined allowed ((addActivity key uid caption types activity).outcome run).1 := by
  unfold addActivity
  split
  · simp
  · split
    · rename_i n _ short
      simp [Uid.confined_activity short.2]
    · simp

@[simp]
theorem confined_listTypes (key : Text) (uid caption : Value) (attributes : Fields) :
    Confined allowed ((listTypes key uid caption attributes).outcome run).1 := by
  simp [listTypes, Uid.confined_activity (n := 0) (by decide), Act.confined_foldlM]

@[simp]
theorem confined_listClass (key : Text) (uid caption description : Value) (attributes : Fields) :
    Confined allowed (listClass key uid caption description attributes) := by simp [listClass]

@[simp]
theorem confined_listCategory (key : Text) (uid category : Value) (attributes : Fields) :
    Confined allowed (listCategory key uid category attributes) := by simp [listCategory]

@[simp]
theorem confined_reportCategory (key : Text) (name : Value) (item : Fields) :
    Confined allowed ((reportCategory key name item).outcome run).1 := by simp [reportCategory]

def ScopesBy (draft : Draft) (uid : Value) : Prop :=
  ∃ item name category fields, draft.categoryOf item = .ok (some (name, category)) ∧
    category.asFields = .ok fields ∧ uid = Entries.getOr "uid" fields (.int 0)

private theorem confined_identify {draft : Draft} (nan : ∀ uid, draft.ScopesBy uid →
      (RangeFault.category uid).NotANumber → allowed (.range (.category uid))) (key : Text) (item : Fields) :
    Confined allowed ((draft.identify key item).outcome run).1 := by
  unfold identify
  extract_lets caption name item
  refine Act.confined_bind_iff.mpr ⟨by simp, fun category after known => ?_⟩
  extract_lets list
  have listed (found : Fields × Value) (run : Run)
      (nan : (RangeFault.category found.2).NotANumber → allowed (.range (.category found.2))) :
      Confined allowed ((list found).outcome run).1 := by
    obtain ⟨item, categoryUid⟩ := found
    refine Act.confined_bind_iff.mpr ⟨by simp, fun own after counted => ?_⟩
    have short := ownNumber_bounds item
    have number := localUid_ok (.of_outcome counted)
    have outer := Uid.confined_categoryOfClass nan (Entries.orNull "extension_id" item)
    cases category with
    | some known => simp [outer, Uid.confined_eventClass number short.2]
    | none => simp [outer, Uid.confined_eventClass number short.2]
  clear_value list
  cases category with
  | some found =>
      refine Act.confined_bind_iff.mpr ⟨by simp, fun fields after opened => ?_⟩
      refine Act.confined_bind_iff.mpr ⟨Act.confined_pure _, fun pair after made => ?_⟩
      cases made
      exact listed _ _ (nan _ ⟨_, _, _, fields, (Prod.mk.inj known).1, (Prod.mk.inj opened).1, rfl⟩)
  | none =>
      refine Act.confined_bind_iff.mpr ⟨Act.confined_pure _, fun pair after made => ?_⟩
      cases made
      exact listed _ _ fun impossible => impossible.elim

private theorem confined_identifyClasses {draft : Draft} (nan : ∀ uid, draft.ScopesBy uid →
      (RangeFault.category uid).NotANumber → allowed (.range (.category uid))) :
    Confined allowed (draft.identifyClasses.outcome run).1 := by
  simp [identifyClasses, Act.confined_mapM, confined_identify nan]

/-! ### The other steps of a draft -/

@[simp]
theorem confined_resolveType (draft : Draft) (name : Text) (value : Value) :
    Confined allowed ((draft.resolveType name value).outcome run).1 := by
  unfold resolveType
  refine Act.confined_bind_iff.mpr ⟨by simp, fun field after _ => ?_⟩
  extract_lets type
  split
  · simp
  · refine Act.confined_bind_iff.mpr ⟨by simp, fun known after _ => ?_⟩
    cases known with
    | some definition => simp
    | none =>
        refine Act.confined_bind_iff.mpr ⟨by simp, fun found after _ => ?_⟩
        cases found <;> simp

@[simp]
theorem confined_resolveDictionary (draft : Draft) : Confined allowed (draft.resolveDictionary.outcome run).1 := by
  simp [resolveDictionary, Act.confined_mapM, Confined.filterMapM]

@[simp]
theorem confined_listObservables (draft : Draft) : Confined allowed (draft.listObservables.outcome run).1 := by
  unfold listObservables
  split <;> simp

@[simp]
theorem confined_checkProfiles (draft : Draft) (kind : ItemKind) (key : Text) (item : Fields) :
    Confined allowed ((draft.checkProfiles kind key item).outcome run).1 := by
  simp [checkProfiles, Act.confined_forIn]

@[simp]
theorem confined_closeProfiles (draft : Draft) (kind : ItemKind) (key : Text) (item : Fields) :
    Confined allowed ((draft.closeProfiles kind key item).outcome run).1 := by simp [closeProfiles]

@[simp]
theorem confined_closeAllProfiles (draft : Draft) : Confined allowed (draft.closeAllProfiles.outcome run).1 := by
  refine Act.confined_bind_iff.mpr ⟨Act.confined_foldlM fun draft key _ run => ?_, fun draft after _ => ?_⟩
  · split <;> simp
  · simp [Act.confined_mapM]

@[simp]
theorem confined_verify (draft : Draft) (kind : ItemKind) (key : Text) (item : Fields) :
    Confined allowed ((draft.verify kind key item).outcome run).1 := by
  unfold verify
  extract_lets deprecated check
  have checked (run : Run) : Confined allowed ((check ()).outcome run).1 := by
    refine Act.confined_bind_iff.mpr ⟨by simp, fun attributes after _ => ?_⟩
    refine Act.confined_bind_iff.mpr ⟨Act.confined_forIn fun entry state run => ?_, fun _ after _ => by simp⟩
    split <;> simp
  simp [checked]

@[simp]
theorem confined_requireAll (draft : Draft) : Confined allowed (draft.requireAll.outcome run).1 := by
  simp [requireAll, Confined.mapM]

private theorem confined_each {items : Entries Fields} {act : Text → Fields → Act Unit}
    (every : ∀ key item run, Confined allowed ((act key item).outcome run).1) :
    Confined allowed ((each items act).outcome run).1 :=
  Act.confined_forM fun entry _ run => every entry.1 entry.2 run

@[simp]
theorem confined_graph (draft : Draft) : Confined allowed draft.graph := by
  simp [graph, Confined.mapM]

end Draft

/-! ### The whole way -/

@[simp]
theorem Definitions.confined_dictionaryFields (d : Definitions) : Confined allowed d.dictionaryFields := by
  unfold dictionaryFields
  split
  · split <;> simp
  · simp

@[simp]
theorem Definitions.confined_observables (d : Definitions) (types attributes : Fields) :
    Confined allowed (d.observables types attributes) := by simp [observables]

@[simp]
theorem Draft.confined_ofDefinitions (d : Definitions) : Confined allowed (Draft.ofDefinitions d) := by
  simp [Draft.ofDefinitions]

/-- The way from definitions to their graph ends with no singular fault, but for the uid of a category that a
class is scoped by and that is not a number. -/
theorem Graph.confined_of_scopes {d : Definitions} (nan : ∀ draft, Draft.ofDefinitions d = .ok draft →
      ∀ uid, draft.ScopesBy uid → (RangeFault.category uid).NotANumber → allowed (.range (.category uid))) (run : Run) :
    Confined allowed ((Graph.ofDefinitions d).outcome run).1 := by
  unfold Graph.ofDefinitions
  refine Act.confined_bind_iff.mpr ⟨by simp, fun start _ starting => ?_⟩
  refine Act.confined_bind_iff.mpr ⟨by simp, fun rawClasses _ _ => ?_⟩
  refine Act.confined_bind_iff.mpr ⟨by simp, fun classes _ _ => ?_⟩
  refine Act.confined_bind_iff.mpr ⟨by simp, fun rawObjects _ _ => ?_⟩
  refine Act.confined_bind_iff.mpr ⟨by simp, fun objects _ _ => ?_⟩
  refine Act.confined_bind_iff.mpr ⟨by simp, fun resolved _ resolving => ?_⟩
  -- the categories are those that the draft started with
  have scopes (uid : Value) (scopes : resolved.ScopesBy uid) : start.ScopesBy uid := by
    obtain ⟨attributes, rfl⟩ := Draft.resolveDictionary_ok (.of_outcome resolving)
    exact scopes
  have identified := fun uid known => nan start (Prod.mk.inj starting).1 uid (scopes uid known)
  simp [Draft.confined_identifyClasses identified, Draft.confined_each]

/-- The way from definitions to their graph ends with no identifier out of its range, but for the uid of a
category that a class is scoped by and that is not a number. -/
theorem Graph.inRange_of_scopes {inside : RangeFault → Prop} {d : Definitions}
    (nan : ∀ draft, Draft.ofDefinitions d = .ok draft →
      ∀ uid, draft.ScopesBy uid → (RangeFault.category uid).NotANumber → inside (.category uid)) (run : Run) :
    InRange inside ((Graph.ofDefinitions d).outcome run).1 := by
  have confined : Confined (fun fault => ∀ cause, fault = .range cause → inside cause)
      ((Graph.ofDefinitions d).outcome run).1 :=
    Graph.confined_of_scopes (fun draft started uid scopes notANumber cause same =>
      Fault.range.inj same ▸ nan draft started uid scopes notANumber) run
  exact confined.inRange fun cause allowed => allowed cause rfl

end EventSchema
