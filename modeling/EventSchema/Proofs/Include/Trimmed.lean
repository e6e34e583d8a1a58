import EventSchema.Proofs.Documents
import EventSchema.Proofs.Include.Files
import EventSchema.Proofs.Spared

/-!
Directives with some of their names deleted.

Two items are the same but for the lists of their directives, of which the second has fewer names. Merging
other content into both, and keeping shared objects in step, leaves them so: a list of names is no object, so
it takes part in neither.
-/

set_option autoImplicit false

namespace EventSchema

open Value

namespace Include

variable {gone : Text → Prop}

/-! ### Lists of names -/

inductive Deletes (gone : Text → Prop) : List Text → List Text → Prop
  | nil : Deletes gone [] []
  | keep {names kept : List Text} (name : Text) (rest : Deletes gone names kept) :
      Deletes gone (name :: names) (name :: kept)
  | drop {names kept : List Text} {name : Text} (left : gone name) (rest : Deletes gone names kept) :
      Deletes gone (name :: names) kept

theorem Deletes.refl (names : List Text) : Deletes gone names names := by
  induction names with
  | nil => exact .nil
  | cons name rest ih => exact ih.keep name

/-- What a directive says, and what is left of it. A lone name counts as a list of one. -/
inductive TrimmedNames (gone : Text → Prop) : Value → Value → Prop
  | same (given : Value) : TrimmedNames gone given given
  | deleted {given : Value} {names kept : List Text} (listed : names? given = some names)
      (deletes : Deletes gone names kept) : TrimmedNames gone given (.array (kept.map .text))

theorem TrimmedNames.shape {given kept : Value} (trimmed : TrimmedNames gone given kept) :
    given = kept ∨ given.isObject = false ∧ kept.isObject = false := by
  cases trimmed with
  | same => exact .inl rfl
  | deleted listed _ => exact .inr ⟨not_object_of_names? listed, rfl⟩

theorem names?_array (names : List Text) : names? (.array (names.map .text)) = some names := by
  have each : (names.map Value.text).mapM Value.text? = some names := by
    induction names with
    | nil => rfl
    | cons name rest ih =>
        rw [List.map_cons, List.mapM_cons, ih]
        rfl
  exact each

/-! ### Single attributes -/

def TrimmedFields (gone : Text → Prop) : Fields → Fields → Prop :=
  Entries.Related fun key value kept => if key = directive then TrimmedNames gone value kept else value = kept

inductive TrimmedAttribute (gone : Text → Prop) : Value → Value → Prop
  | leaf {value : Value} (plain : value.isObject = false) : TrimmedAttribute gone value value
  | fields {fields kept : Fields} (trimmed : TrimmedFields gone fields kept) :
      TrimmedAttribute gone (.record fields) (.record kept)

def TrimmedEach (gone : Text → Prop) : Fields → Fields → Prop :=
  Entries.Related fun _ => TrimmedAttribute gone

def TrimmedAttributes (gone : Text → Prop) (among : Value → Value → Prop) : Fields → Fields → Prop :=
  Entries.Related fun key value kept =>
    if key = directive then among value kept else TrimmedAttribute gone value kept

/-- What is read as the directive among the attributes: the same but for some names, or two objects, which are
refused alike. -/
inductive TrimmedAmong (gone : Text → Prop) : Value → Value → Prop
  | names {given kept : Value} (trimmed : TrimmedNames gone given kept) : TrimmedAmong gone given kept
  | refused {given kept : Value} (shape : given.isObject = true) (also : kept.isObject = true) :
      TrimmedAmong gone given kept

theorem related_get? {relation : Text → Value → Value → Prop} {fields kept : Fields}
    (related : Entries.Related relation fields kept) (key : Text) :
    Option.Rel (relation key) (Entries.get? key fields) (Entries.get? key kept) := by
  induction related with
  | nil => exact .none
  | cons first _ ih =>
      rw [Entries.get?_cons, Entries.get?_cons, first.1]
      split
      · rename_i here
        exact .some (here ▸ first.2)
      · exact ih

private theorem related_refl {relation : Text → Value → Value → Prop} {fields : Fields}
    (each : ∀ entry ∈ fields, relation entry.1 entry.2 entry.2) : Entries.Related relation fields fields :=
  List.forall₂_same.mpr fun entry member => ⟨rfl, each entry member⟩

theorem related_mapValues {relation last : Text → Value → Value → Prop} {fields kept : Fields}
    (related : Entries.Related relation fields kept) {change other : Value → Value}
    (each : ∀ key value result, relation key value result → last key (change value) (other result)) :
    Entries.Related last (Entries.mapValues change fields) (Entries.mapValues other kept) := by
  induction related with
  | nil => exact .nil
  | cons first _ ih => exact .cons ⟨first.1, each _ _ _ first.2⟩ ih

theorem TrimmedFields.refl (fields : Fields) : TrimmedFields gone fields fields := by
  apply related_refl
  intro entry _
  split
  · exact .same _
  · rfl

/-- An attribute in one place is itself with nothing deleted. -/
theorem trimmedAttribute_refl {value : Value} (single : value.Single) : TrimmedAttribute gone value value := by
  rcases single.shape with plain | ⟨fields, rfl⟩
  · exact .leaf plain
  · exact .fields (.refl fields)

theorem trimmedEach_refl {attributes : Fields} (each : SingleEach attributes) :
    TrimmedEach gone attributes attributes :=
  related_refl fun entry member => trimmedAttribute_refl (each entry member)

theorem TrimmedAttribute.isObject_eq {value kept : Value} (trimmed : TrimmedAttribute gone value kept) :
    value.isObject = kept.isObject := by
  cases trimmed with
  | leaf plain => rfl
  | fields trimmed => rfl

/-! ### Without the directive -/

/-- Without the directive nothing is left that differs. -/
theorem TrimmedFields.erase_eq {fields kept : Fields} (trimmed : TrimmedFields gone fields kept) :
    Entries.erase directive fields = Entries.erase directive kept := by
  induction trimmed with
  | nil => rfl
  | cons first _ ih =>
      obtain ⟨sameKey, cell⟩ := first
      rw [Entries.erase_cons, Entries.erase_cons, sameKey, ih]
      split
      · rfl
      · rename_i other
        rw [if_neg other] at cell
        exact congrArg (· :: _) (Prod.ext sameKey.symm cell)

theorem TrimmedAttributes.erase {among : Value → Value → Prop} {attributes kept : Fields}
    (trimmed : TrimmedAttributes gone among attributes kept) :
    TrimmedEach gone (Entries.erase directive attributes) (Entries.erase directive kept) := by
  induction trimmed with
  | nil => exact .nil
  | cons first _ ih =>
      obtain ⟨sameKey, cell⟩ := first
      rw [Entries.erase_cons, Entries.erase_cons, sameKey]
      split
      · exact ih
      · rename_i other
        rw [if_neg other] at cell
        exact .cons ⟨sameKey, cell⟩ ih

/-! ### Shared objects -/

private theorem occurrences_of_not_object {value : Value} (plain : value.isObject = false) :
    occurrences value = [] := by
  cases value with
  | object mark fields => cases plain
  | null | bool _ | int _ | float _ | text _ | array _ => rfl

private theorem bound_of_not_object {value : Value} (plain : value.isObject = false) : value.bound = 0 := by
  cases value with
  | object mark fields => cases plain
  | null | bool _ | int _ | float _ | text _ | array _ => rfl

theorem TrimmedNames.occurrences_eq {given kept : Value} (trimmed : TrimmedNames gone given kept) :
    occurrences given = occurrences kept := by
  rcases trimmed.shape with rfl | ⟨plain, also⟩
  · rfl
  · rw [occurrences_of_not_object plain, occurrences_of_not_object also]

theorem TrimmedNames.bound_eq {given kept : Value} (trimmed : TrimmedNames gone given kept) :
    given.bound = kept.bound := by
  rcases trimmed.shape with rfl | ⟨plain, also⟩
  · rfl
  · rw [bound_of_not_object plain, bound_of_not_object also]

private theorem occurrencesFields_eq {relation : Text → Value → Value → Prop} {fields kept : Fields}
    (related : Entries.Related relation fields kept)
    (each : ∀ key value other, relation key value other → occurrences value = occurrences other) :
    occurrencesFields fields = occurrencesFields kept := by
  induction related with
  | nil => rfl
  | cons first _ ih => rw [occurrencesFields, occurrencesFields, each _ _ _ first.2, ih]

theorem boundFields_eq {relation : Text → Value → Value → Prop} {fields kept : Fields}
    (related : Entries.Related relation fields kept)
    (each : ∀ key value other, relation key value other → bound value = bound other) :
    boundFields fields = boundFields kept := by
  induction related with
  | nil => rfl
  | cons first _ ih => rw [boundFields, boundFields, each _ _ _ first.2, ih]

theorem TrimmedFields.occurrences_eq {fields kept : Fields} (trimmed : TrimmedFields gone fields kept) :
    occurrencesFields fields = occurrencesFields kept := by
  refine occurrencesFields_eq trimmed fun key value other cell => ?_
  split at cell
  · exact cell.occurrences_eq
  · rw [cell]

theorem TrimmedFields.bound_eq {fields kept : Fields} (trimmed : TrimmedFields gone fields kept) :
    boundFields fields = boundFields kept := by
  refine boundFields_eq trimmed fun key value other cell => ?_
  split at cell
  · exact cell.bound_eq
  · rw [cell]

theorem TrimmedAttribute.occurrences_eq {value kept : Value} (trimmed : TrimmedAttribute gone value kept) :
    occurrences value = occurrences kept := by
  cases trimmed with
  | leaf plain => rfl
  | fields trimmed => exact trimmed.occurrences_eq

theorem TrimmedAttribute.bound_eq {value kept : Value} (trimmed : TrimmedAttribute gone value kept) :
    value.bound = kept.bound := by
  cases trimmed with
  | leaf plain => rfl
  | fields trimmed => exact trimmed.bound_eq

private theorem refresh_of_not_object {value : Value} (plain : value.isObject = false) (known : Occurrences) :
    refresh known value = value := by
  cases value with
  | object mark fields => cases plain
  | null | bool _ | int _ | float _ | text _ | array _ => rfl

private theorem related_refreshFields {relation : Text → Value → Value → Prop} {fields kept : Fields}
    (related : Entries.Related relation fields kept) {known : Occurrences}
    (each : ∀ key value other, relation key value other →
      relation key (refresh known value) (refresh known other)) :
    Entries.Related relation (refreshFields known fields) (refreshFields known kept) := by
  induction related with
  | nil => exact .nil
  | cons first _ ih =>
      rw [refreshFields, refreshFields]
      exact .cons ⟨first.1, each _ _ _ first.2⟩ ih

theorem TrimmedNames.refresh {given kept : Value} (trimmed : TrimmedNames gone given kept)
    (known : Occurrences) : TrimmedNames gone (Value.refresh known given) (Value.refresh known kept) := by
  cases trimmed with
  | same => exact .same _
  | deleted listed deletes =>
      rw [refresh_of_not_object (not_object_of_names? listed), refresh_of_not_object rfl]
      exact .deleted listed deletes

theorem TrimmedFields.refreshFields {fields kept : Fields} (trimmed : TrimmedFields gone fields kept)
    (known : Occurrences) : TrimmedFields gone (Value.refreshFields known fields) (Value.refreshFields known kept) := by
  refine related_refreshFields trimmed fun key value other cell => ?_
  by_cases here : key = directive
  · rw [if_pos here] at cell ⊢
    exact cell.refresh known
  · rw [if_neg here] at cell ⊢
    rw [cell]

theorem TrimmedAttribute.refresh {value kept : Value} (trimmed : TrimmedAttribute gone value kept)
    (known : Occurrences) : TrimmedAttribute gone (Value.refresh known value) (Value.refresh known kept) := by
  cases trimmed with
  | leaf plain =>
      rw [refresh_of_not_object plain]
      exact .leaf plain
  | fields trimmed => exact .fields (trimmed.refreshFields known)

theorem TrimmedEach.refreshFields {attributes kept : Fields} (trimmed : TrimmedEach gone attributes kept)
    (known : Occurrences) : TrimmedEach gone (Value.refreshFields known attributes) (Value.refreshFields known kept) :=
  related_refreshFields trimmed fun _ _ _ cell => cell.refresh known

/-! ### Merges -/

theorem TrimmedNames.merge {dest keptDest given kept : Value} (under : TrimmedNames gone dest keptDest)
    (trimmed : TrimmedNames gone given kept) : TrimmedNames gone (dest.merge given) (keptDest.merge kept) := by
  rcases trimmed.shape with rfl | ⟨plain, also⟩
  · rcases under.shape with rfl | ⟨apart, apart'⟩
    · exact .same _
    · rw [merge_apart (.inl apart), merge_apart (.inl apart')]
      exact .same _
  · rw [merge_apart (.inr plain), merge_apart (.inr also)]
    exact trimmed

theorem TrimmedFields.mergeFields {dest keptDest source kept : Fields} (under : TrimmedFields gone dest keptDest)
    (trimmed : TrimmedFields gone source kept) :
    TrimmedFields gone (Value.mergeFields dest source) (Value.mergeFields keptDest kept) := by
  induction trimmed generalizing dest keptDest with
  | nil => exact under
  | @cons entry other _ _ first _ ih =>
      obtain ⟨key, value⟩ := entry
      obtain ⟨key', value'⟩ := other
      obtain ⟨sameKey, cell⟩ := first
      dsimp only at sameKey cell
      subst sameKey
      rw [Value.mergeFields, Value.mergeFields]
      apply ih
      apply Entries.Related.put under
      have old := related_get? under key'
      by_cases here : key' = directive
      · rw [if_pos here] at cell ⊢
        rw [here] at old ⊢
        generalize Entries.get? directive dest = left, Entries.get? directive keptDest = right at old
        cases old with
        | none => exact cell
        | some before =>
            rw [if_pos rfl] at before
            exact before.merge cell
      · rw [if_neg here] at cell ⊢
        generalize Entries.get? key' dest = left, Entries.get? key' keptDest = right at old
        cases old with
        | none => exact cell
        | some before =>
            rw [if_neg here] at before
            rw [before, cell]

theorem TrimmedAttribute.merge {dest keptDest value kept : Value} (under : TrimmedAttribute gone dest keptDest)
    (trimmed : TrimmedAttribute gone value kept) :
    TrimmedAttribute gone (dest.merge value) (keptDest.merge kept) := by
  cases trimmed with
  | leaf plain =>
      rw [merge_apart (.inr plain), merge_apart (.inr plain)]
      exact .leaf plain
  | fields trimmed =>
      cases under with
      | leaf apart =>
          rw [merge_apart (.inl apart), merge_apart (.inl apart)]
          exact .fields trimmed
      | fields under =>
          rw [record, record, merge_object, record, record, merge_object]
          exact .fields (under.mergeFields trimmed)

theorem TrimmedEach.putShared {attributes kept : Fields} (trimmed : TrimmedEach gone attributes kept) (key : Text)
    {value other : Value} (cell : TrimmedAttribute gone value other) :
    TrimmedEach gone (Value.putShared key value attributes) (Value.putShared key other kept) := by
  unfold Value.putShared
  rw [cell.occurrences_eq]
  exact TrimmedEach.refreshFields (Entries.Related.put trimmed cell) _

private theorem overlayOne_new {key : Text} {fields : Fields} (absent : Entries.get? key fields = none) (value : Value)
    (later : Fields) : Value.overlayOne key value fields later = (Entries.put key value fields, later) := by
  unfold Value.overlayOne
  rw [absent]

private theorem overlayOne_apart {key : Text} {value old : Value} {fields : Fields}
    (found : Entries.get? key fields = some old) (apart : old.isObject = false ∨ value.isObject = false)
    (later : Fields) : Value.overlayOne key value fields later = (Entries.put key value fields, later) := by
  unfold Value.overlayOne
  split
  · rename_i known
    cases found.symm.trans known
    rcases apart with shape | shape <;> cases shape
  · rfl

/-- Where both sides have an object the merge goes on, and where one has none the later one is put. -/
theorem TrimmedEach.overlayOne {attributes kept later keptLater : Fields}
    (trimmed : TrimmedEach gone attributes kept) (key : Text) {value other : Value}
    (cell : TrimmedAttribute gone value other) (rest : TrimmedEach gone later keptLater) :
    TrimmedEach gone (Value.overlayOne key value attributes later).1 (Value.overlayOne key other kept keptLater).1 ∧
      TrimmedEach gone (Value.overlayOne key value attributes later).2
        (Value.overlayOne key other kept keptLater).2 := by
  have put : TrimmedEach gone (Entries.put key value attributes) (Entries.put key other kept) :=
    Entries.Related.put trimmed cell
  have old := related_get? trimmed key
  cases found : Entries.get? key attributes with
  | none =>
      rw [found] at old
      cases found' : Entries.get? key kept with
      | some _ =>
          rw [found'] at old
          cases old
      | none =>
          rw [overlayOne_new found, overlayOne_new found']
          exact ⟨put, rest⟩
  | some before =>
      rw [found] at old
      cases found' : Entries.get? key kept with
      | none =>
          rw [found'] at old
          cases old
      | some before' =>
          rw [found'] at old
          cases old with
          | some under =>
              by_cases apart : before.isObject = false ∨ value.isObject = false
              · rw [overlayOne_apart found apart, overlayOne_apart found' (by
                  rwa [← under.isObject_eq, ← cell.isObject_eq])]
                exact ⟨put, rest⟩
              · have merged := under.merge cell
                cases under with
                | leaf plain => exact absurd (.inl plain) apart
                | fields _ =>
                    cases cell with
                    | leaf plain => exact absurd (.inr plain) apart
                    | fields _ =>
                        unfold Value.overlayOne
                        rw [found, found']
                        refine ⟨trimmed.putShared key merged, ?_⟩
                        dsimp only [record] at merged ⊢
                        rw [merged.occurrences_eq]
                        exact rest.refreshFields _

/-- Attributes that differ in their directives only are laid over the same ones. -/
theorem TrimmedEach.overlay {attributes kept source others : Fields} (trimmed : TrimmedEach gone attributes kept)
    (given : TrimmedEach gone source others) :
    TrimmedEach gone (Value.overlay attributes source) (Value.overlay kept others) := by
  induction attributes, source using Value.overlay.induct generalizing kept others with
  | case1 attributes =>
      cases given
      rw [Value.overlay, Value.overlay]
      exact trimmed
  | case2 attributes key value later ih =>
      cases given with
      | @cons _ other _ rest first given =>
          obtain ⟨key', value'⟩ := other
          obtain ⟨sameKey, cell⟩ := first
          dsimp only at sameKey cell
          subst sameKey
          obtain ⟨here, there⟩ := trimmed.overlayOne key' cell given
          rw [Value.overlay, Value.overlay]
          exact ih here there

/-! ### Items and documents -/

inductive Within (key : Text) (relation : Fields → Fields → Prop) : Fields → Fields → Prop
  | apart {fields : Fields} (none : ∀ mark inner, Entries.get? key fields ≠ some (.object mark inner)) :
      Within key relation fields fields
  | inside {fields inner kept : Fields} {mark : Option Nat}
      (found : Entries.get? key fields = some (.object mark inner)) (related : relation inner kept) :
      Within key relation fields (Entries.put key (.object mark kept) fields)

def TrimmedItem (gone : Text → Prop) : Fields → Fields → Prop :=
  Within "attributes" (TrimmedAttributes gone (TrimmedNames gone))

def TrimmedFragment (gone : Text → Prop) : Fields → Fields → Prop :=
  Within "attributes" (TrimmedAttributes gone (TrimmedAmong gone))

/-- Documents are the same but for the names in their directives and in one that annotations fill in. -/
def TrimmedDocument (gone : Text → Prop) (document kept : Fields) : Prop :=
  ∃ middle, TrimmedItem gone document middle ∧ Within "annotations" (TrimmedFields gone) middle kept

namespace Within

variable {key : Text} {relation last : Fields → Fields → Prop} {fields kept : Fields}

theorem boundFields_put {fields : Fields} {value old : Value} (found : Entries.get? key fields = some old)
    (same : value.bound = old.bound) : boundFields (Entries.put key value fields) = boundFields fields := by
  induction fields with
  | nil => cases found
  | cons head rest ih =>
      obtain ⟨name, first⟩ := head
      rw [Entries.get?_cons] at found
      rw [Entries.put]
      by_cases here : name = key
      · rw [if_pos here, Option.some.injEq] at found
        rw [if_pos here, boundFields, boundFields, same, ← found]
      · rw [if_neg here] at found
        rw [if_neg here, boundFields, boundFields, ih found]

theorem bound_eq (within : Within key relation fields kept)
    (each : ∀ inner other, relation inner other → boundFields inner = boundFields other) :
    boundFields fields = boundFields kept := by
  cases within with
  | apart none => rfl
  | @inside inner other mark found related =>
      have same : (Value.object mark other).bound = (Value.object mark inner).bound := by
        cases mark with
        | none => rw [bound, bound, each _ _ related]
        | some m => rw [bound, bound, each _ _ related]
      rw [boundFields_put found same]

private theorem get?_of_ne (within : Within key relation fields kept) {other : Text} (different : key ≠ other) :
    Entries.get? other kept = Entries.get? other fields := by
  cases within with
  | apart none => rfl
  | inside found related => exact Entries.get?_put_of_ne different _ _

theorem put (within : Within key relation fields kept) {mark : Option Nat} {inner other : Fields}
    (related : last inner other) : Within key last (Entries.put key (.object mark inner) fields)
      (Entries.put key (.object mark other) kept) := by
  have overwritten : Entries.put key (.object mark other) kept =
      Entries.put key (.object mark other) (Entries.put key (.object mark inner) fields) := by
    cases within with
    | apart none => rw [Entries.put_put]
    | inside found before => rw [Entries.put_put, Entries.put_put]
  rw [overwritten]
  exact .inside (Entries.get?_put_self _ _ _) related

theorem put_eq (within : Within key relation fields kept) (value : Value) :
    Entries.put key value fields = Entries.put key value kept := by
  cases within with
  | apart none => rfl
  | inside found related => rw [Entries.put_put]

theorem imp (within : Within key relation fields kept)
    (each : ∀ inner other, relation inner other → last inner other) : Within key last fields kept := by
  cases within with
  | apart none => exact .apart none
  | inside found related => exact .inside found (each _ _ related)

theorem erase (within : Within key relation fields kept) {other : Text} (different : key ≠ other) :
    Within key relation (Entries.erase other fields) (Entries.erase other kept) := by
  have same : Entries.get? key (Entries.erase other fields) = Entries.get? key fields := by
    rw [Entries.get?_erase, if_neg different]
  cases within with
  | apart none =>
      apply apart
      rwa [same]
  | inside found related =>
      rw [Entries.erase_put_of_ne different]
      exact .inside (same.trans found) related

/-- Without the key nothing is left that differs. -/
theorem erase_eq (within : Within key relation fields kept) :
    Entries.erase key fields = Entries.erase key kept := by
  cases within with
  | apart none => rfl
  | inside found related => rw [Entries.erase_put_self]

/-- What is found under the key: the same, or two objects that are related inside. -/
theorem get? (within : Within key relation fields kept) :
    Entries.get? key fields = Entries.get? key kept ∧
        (∀ mark inner, Entries.get? key fields ≠ some (.object mark inner)) ∨
      ∃ mark inner other, Entries.get? key fields = some (.object mark inner) ∧
        Entries.get? key kept = some (.object mark other) ∧ relation inner other := by
  cases within with
  | apart none => exact .inl ⟨rfl, none⟩
  | inside found related => exact .inr ⟨_, _, _, found, Entries.get?_put_self _ _ _, related⟩

end Within

theorem TrimmedItem.fragment {item kept : Fields} (trimmed : TrimmedItem gone item kept) :
    TrimmedFragment gone item kept := by
  refine Within.imp trimmed fun attributes others related => ?_
  refine Entries.Related.imp (fun key value other cell => ?_) related
  split at cell
  · rename_i here
    rw [if_pos here]
    exact .names cell
  · rename_i apart
    rw [if_neg apart]
    exact cell

theorem TrimmedAttributes.bound_eq {among : Value → Value → Prop} {attributes kept : Fields}
    (trimmed : TrimmedAttributes gone among attributes kept)
    (each : ∀ value other, among value other → value.bound = other.bound) :
    boundFields attributes = boundFields kept := by
  refine boundFields_eq trimmed fun key value other cell => ?_
  split at cell
  · exact each _ _ cell
  · exact cell.bound_eq

/-- An item whose attributes are in one place each is itself with nothing deleted. -/
theorem trimmedItem_refl {item : Fields} (each : SingleEach (Entries.attributes item)) :
    TrimmedItem gone item item := by
  unfold Entries.attributes at each
  split at each
  · rename_i mark attributes found
    have same : TrimmedAttributes gone (TrimmedNames gone) attributes attributes := by
      apply related_refl
      intro entry member
      split
      · exact .same _
      · exact trimmedAttribute_refl (each entry member)
    have inside := Within.inside found same
    rwa [Entries.put_of_get? found] at inside
  · rename_i other
    exact .apart other

/-! ### Annotations -/

private theorem next_of_not_object {value : Value} (plain : value.isObject = false) (next : Nat) :
    (Value.mark next value).2 = next := by
  cases value with
  | object own fields => cases plain
  | null | bool _ | int _ | float _ | text _ | array _ => rfl

theorem TrimmedNames.mark {given kept : Value} (trimmed : TrimmedNames gone given kept) (next : Nat) :
    TrimmedNames gone (Value.mark next given).1 (Value.mark next kept).1 ∧
      (Value.mark next given).2 = (Value.mark next kept).2 := by
  rcases trimmed.shape with rfl | ⟨plain, also⟩
  · exact ⟨.same _, rfl⟩
  · rw [mark_of_not_object plain, mark_of_not_object also, next_of_not_object plain, next_of_not_object also]
    exact ⟨trimmed, rfl⟩

private theorem markFields_cons (next : Nat) (key : Text) (value : Value) (rest : Fields) :
    (Value.markFields next ((key, value) :: rest)).1 =
      (key, (Value.mark next value).1) :: (Value.markFields (Value.mark next value).2 rest).1 := rfl

theorem TrimmedFields.markFields {fields kept : Fields} (trimmed : TrimmedFields gone fields kept) (next : Nat) :
    TrimmedFields gone (Value.markFields next fields).1 (Value.markFields next kept).1 := by
  induction trimmed generalizing next with
  | nil => exact .nil
  | @cons entry other _ _ first _ ih =>
      obtain ⟨key, value⟩ := entry
      obtain ⟨key', value'⟩ := other
      obtain ⟨sameKey, cell⟩ := first
      dsimp only at sameKey cell
      subst sameKey
      rw [markFields_cons, markFields_cons]
      by_cases here : key' = directive
      · rw [if_pos here] at cell
        obtain ⟨marked, after⟩ := cell.mark next
        rw [after]
        refine .cons ⟨rfl, ?_⟩ (ih _)
        dsimp only
        rwa [if_pos here]
      · rw [if_neg here] at cell
        rw [cell]
        refine .cons ⟨rfl, ?_⟩ (ih _)
        dsimp only
        rw [if_neg here]

private theorem fill_cons (key : Text) (value : Value) (annotations fields : Fields) :
    Fragment.fill ((key, value) :: annotations) fields =
      Fragment.fill annotations (Entries.putNew key value fields) := rfl

theorem TrimmedFields.fill {fields kept annotations others : Fields} (trimmed : TrimmedFields gone fields kept)
    (given : TrimmedFields gone annotations others) :
    TrimmedFields gone (Fragment.fill annotations fields) (Fragment.fill others kept) := by
  induction given generalizing fields kept with
  | nil => exact trimmed
  | @cons annotation other _ _ first _ ih =>
      obtain ⟨key, value⟩ := annotation
      obtain ⟨key', value'⟩ := other
      obtain ⟨sameKey, cell⟩ := first
      dsimp only at sameKey cell
      subst sameKey
      rw [fill_cons, fill_cons]
      apply ih
      have present : Entries.has key' fields = Entries.has key' kept := by
        rw [Bool.eq_iff_iff, Entries.has_iff_mem_keys, Entries.has_iff_mem_keys, Entries.Related.keys_eq trimmed]
      unfold Entries.putNew
      rw [present]
      split
      · exact trimmed
      · exact Entries.Related.put trimmed cell

/-- An object where the directive is stays one when annotations are filled in, and is refused as before. -/
theorem TrimmedAttributes.fillEach {attributes kept annotations others : Fields}
    (trimmed : TrimmedAttributes gone (TrimmedNames gone) attributes kept)
    (given : TrimmedFields gone annotations others) :
    TrimmedAttributes gone (TrimmedAmong gone) (Fragment.fillEach annotations attributes)
      (Fragment.fillEach others kept) := by
  apply related_mapValues trimmed
  intro key value other cell
  by_cases here : key = directive
  · rw [if_pos here] at cell ⊢
    cases cell with
    | same =>
        cases value with
        | object mark fields => exact .refused rfl rfl
        | null | bool _ | int _ | float _ | text _ | array _ => exact .names (.same _)
    | deleted listed deletes =>
        cases value with
        | object mark fields => cases listed
        | null | bool _ | int _ | float _ | text _ | array _ => exact .names (.deleted listed deletes)
  · rw [if_neg here] at cell ⊢
    cases cell with
    | leaf plain =>
        cases value with
        | object mark fields => cases plain
        | null | bool _ | int _ | float _ | text _ | array _ => exact .leaf rfl
    | fields inside => exact .fields (inside.fill given)

theorem TrimmedFields.isEmpty_eq {fields kept : Fields} (trimmed : TrimmedFields gone fields kept) :
    fields.isEmpty = kept.isEmpty := by
  cases trimmed with
  | nil => rfl
  | cons _ _ => rfl

theorem TrimmedDocument.bound_eq {document kept : Fields} (trimmed : TrimmedDocument gone document kept) :
    boundFields document = boundFields kept := by
  obtain ⟨middle, item, annotated⟩ := trimmed
  rw [Within.bound_eq item fun _ _ related => related.bound_eq fun _ _ cell => cell.bound_eq]
  exact annotated.bound_eq fun _ _ related => TrimmedFields.bound_eq related

theorem TrimmedDocument.annotate {document kept : Fields} (trimmed : TrimmedDocument gone document kept)
    (file : Option Path) :
    Concur (TrimmedFragment gone) (Fragment.annotate file document) (Fragment.annotate file kept) := by
  have bound := trimmed.bound_eq
  obtain ⟨middle, item, annotated⟩ := trimmed
  have rest : TrimmedItem gone (Entries.erase "annotations" document) (Entries.erase "annotations" kept) := by
    rw [← annotated.erase_eq]
    exact Within.erase item (by decide)
  have before : Entries.get? "annotations" document = Entries.get? "annotations" middle :=
    (Within.get?_of_ne item (by decide)).symm
  unfold Fragment.annotate
  dsimp only
  rw [before, ← bound]
  rcases annotated.get? with ⟨same, none⟩ | ⟨mark, annotations, others, found, foundKept, related⟩
  · rw [← same]
    cases known : Entries.get? "annotations" middle with
    | none => exact .ok rest.fragment
    | some value =>
        dsimp only
        split
        · cases value with
          | object mark fields => exact absurd known (none mark fields)
          | null | bool _ | int _ | float _ | text _ | array _ => exact .error (.refl _)
        · exact .ok rest.fragment
  · rw [found, foundKept]
    dsimp only
    rw [truthy, truthy, TrimmedFields.isEmpty_eq related]
    split
    · rcases Within.get? rest with ⟨same, none⟩ | ⟨own, attributes, left, present, presentKept, inside⟩
      · rw [← same]
        cases known : Entries.get? "attributes" (Entries.erase "annotations" document) with
        | none => exact .ok rest.fragment
        | some value =>
            cases value with
            | object mark fields => exact absurd known (none mark fields)
            | null | bool _ | int _ | float _ | text _ | array _ => exact .ok rest.fragment
      · rw [present, presentKept]
        exact .ok (Within.put rest (TrimmedAttributes.fillEach inside (TrimmedFields.markFields related _)))
    · exact .ok rest.fragment

end Include
end EventSchema
