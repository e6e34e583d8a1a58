import EventSchema.Lineage
import EventSchema.Proofs.Profiles
import EventSchema.Proofs.Value.Plain

/-!
One step down a line.

An item as a document states it is flattened without a fault, on its own or over a flattened parent.
Each field of the result is a function of the same field of the parent and of the item, and so is each
attribute, so that what a whole line comes to can be told field by field.
-/

set_option autoImplicit false

namespace EventSchema

namespace Lineage

def sourceOf : Value → Option Value
  | .object _ fields => Entries.get? "_source" fields
  | _ => none

/-- An item as a document states it, before any pass: no object in it occurs twice, no key comes
twice, and it carries none of the marks of a pass. -/
structure Stated (item : Fields) : Prop where
  plain : Value.PlainFields item
  distinct : Entries.Distinct item
  attributes : ∀ value, Entries.get? "attributes" item = some value → value.isObject = true
  names : Entries.Distinct (Entries.attributes item)
  unsourced : ∀ entry ∈ Entries.attributes item, sourceOf entry.2 = none
  profiles : TextList (Entries.get? "profiles" item)
  unresolved : Entries.get? "_resolved" item = none

structure Heritable (attributes : Fields) : Prop where
  plain : Value.PlainFields attributes
  distinct : Entries.Distinct attributes
  sourced : ∀ name mark fields, Entries.get? name attributes = some (.object mark fields) →
    ∃ source : Text, Entries.get? "_source" fields = some (.text source)

namespace Stated

variable {item : Fields}

theorem plain_attributes (stated : Stated item) : Value.PlainFields (Entries.attributes item) :=
  stated.plain.attributes

theorem fieldsOrNone_attributes (stated : Stated item) :
    Value.fieldsOrNone (Entries.get? "attributes" item) = .ok (Entries.attributes item) := by
  unfold Entries.attributes
  cases found : Entries.get? "attributes" item with
  | none => rfl
  | some value =>
      have object := stated.attributes value found
      cases value with
      | object mark fields => cases fields <;> rfl
      | null | bool _ | int _ | float _ | text _ | array _ => cases object

end Stated

theorem kept_get? {attributes : Fields} (distinct : Entries.Distinct attributes) (name : Text) :
    Entries.get? name (kept attributes) =
      (Entries.get? name attributes).filter fun value => !value.isNull := by
  induction attributes with
  | nil => rfl
  | cons head rest ih =>
      have split := List.nodup_cons.mp distinct
      have later := ih split.2
      unfold kept at later ⊢
      rw [List.filter_cons, Entries.get?_cons]
      by_cases same : head.1 = name
      · rw [if_pos same]
        by_cases dropped : head.2.isNull = true
        · have absent : Entries.get? name rest = none :=
            Entries.get?_eq_none_iff.mpr (same ▸ split.1)
          rw [absent] at later
          simpa [dropped, Option.filter_some] using later
        · simp [dropped, Entries.get?_cons, same, Option.filter_some]
      · rw [if_neg same]
        by_cases dropped : head.2.isNull = true
        · simpa [dropped] using later
        · simpa [dropped, Entries.get?_cons, same] using later

theorem Heritable.kept {attributes : Fields} (heritable : Heritable attributes) :
    Heritable (kept attributes) where
  plain := heritable.plain.filter _
  distinct := heritable.distinct.filter _
  sourced := by
    intro name mark fields found
    rw [kept_get? heritable.distinct, Option.filter_eq_some_iff] at found
    exact heritable.sourced name mark fields found.1

/-! ### Alone -/

theorem standalone_ok (key : Text) {item : Fields} (stated : Stated item) :
    ∃ flat attributes, standalone key item = .ok flat ∧
      Entries.get? "attributes" flat = some (.record attributes) ∧ Heritable attributes ∧
      (∀ name, Entries.get? name attributes =
        ((Entries.get? name (Entries.attributes item)).filter fun value => !value.isNull).map
          (sourced key)) ∧
      ∀ field : Text, field ≠ "attributes" → Entries.get? field flat = Entries.get? field item := by
  let attributes := Entries.mapValues (sourced key) (kept (Entries.attributes item))
  have found (name : Text) : Entries.get? name attributes =
      ((Entries.get? name (Entries.attributes item)).filter fun value => !value.isNull).map
        (sourced key) := by
    rw [Entries.get?_mapValues, kept_get? stated.names]
  refine ⟨Entries.put "attributes" (.record attributes) item, attributes, ?_, ?_, ?_, found, ?_⟩
  · rw [standalone, stated.fieldsOrNone_attributes]
    rfl
  · exact Entries.get?_put_self _ _ _
  · refine ⟨?_, (stated.names.filter _).mapValues _, ?_⟩
    · refine Value.plainFields_iff.mpr fun entry member => ?_
      obtain ⟨origin, present, same⟩ := List.mem_map.mp member
      have plain := Value.plainFields_iff.mp stated.plain_attributes origin
        (List.mem_of_mem_filter present)
      subst same
      change Value.Plain (sourced key origin.2)
      cases shape : origin.2 with
      | object mark fields =>
          rw [shape] at plain
          obtain ⟨unmarked, inside⟩ := Value.plain_object.mp plain
          exact Value.plain_object.mpr ⟨unmarked, inside.putNew (Value.plain_text key) _⟩
      | null | bool _ | int _ | float _ | text _ | array _ => rfl
    · intro name mark fields present
      rw [found, Option.map_eq_some_iff] at present
      obtain ⟨value, known, same⟩ := present
      rw [Option.filter_eq_some_iff] at known
      cases value with
      | object mark' declared =>
          rw [sourced, Value.object.injEq] at same
          refine ⟨key, ?_⟩
          have absent := stated.unsourced _ (Entries.mem_of_get? known.1)
          rw [← same.2, Entries.get?_putNew, if_pos ⟨rfl, absent⟩]
      | null | bool _ | int _ | float _ | text _ | array _ => cases same
  · intro field different
    exact Entries.get?_put_of_ne (Ne.symm different) _ _

/-! ### Over a parent -/

def attributeOver (key : Text) : Option Value → Value → Value
  | some (.object mark base), .object own fields => .merge (.object mark base) (.object own fields)
  | _, value => sourced key value

def observablesOver : Option Value → Value → Value
  | some (.object mark observables), value =>
    if value.isObject then .merge (.object mark observables) value else .object mark observables
  | _, value => value

def fieldOver (parent : Fields) (field : Text) (before : Option Value) (value : Value) :
    Option Value :=
  if field = "attributes" then before
  else if field = "profiles" then
    some (.array (Value.addNew [] (listed (Entries.get? "profiles" parent) ++ listed (some value))))
  else if field = "observables" then some (observablesOver before value)
  else some value

/-- Fields taken one after another, each changing only what is under its own key. -/
theorem foldlM_fields {σ : Type} {holds : σ → Prop} {step : σ → Text × Value → Except Fault σ}
    (view : σ → Fields) (onto : Text → Option Value → Value → Option Value)
    {fields : Fields} (distinct : Entries.Distinct fields)
    (each : ∀ entry ∈ fields, ∀ state, holds state → ∃ after, step state entry = .ok after ∧
      holds after ∧ ∀ other, Entries.get? other (view after) =
        if other = entry.1 then onto entry.1 (Entries.get? entry.1 (view state)) entry.2
        else Entries.get? other (view state))
    {start : σ} (initial : holds start) :
    ∃ after, fields.foldlM step start = .ok after ∧ holds after ∧
      ∀ other, Entries.get? other (view after) = match Entries.get? other fields with
        | none => Entries.get? other (view start)
        | some value => onto other (Entries.get? other (view start)) value := by
  induction fields generalizing start with
  | nil => exact ⟨start, rfl, initial, fun other => rfl⟩
  | cons head rest ih =>
      have split := List.nodup_cons.mp distinct
      obtain ⟨middle, stepped, heldMiddle, changed⟩ :=
        each head (List.mem_cons_self ..) start initial
      obtain ⟨after, ran, heldAfter, told⟩ := ih split.2
        (fun entry member => each entry (List.mem_cons_of_mem _ member)) heldMiddle
      refine ⟨after, ?_, heldAfter, fun other => ?_⟩
      · rw [List.foldlM_cons, stepped]
        exact ran
      · rw [told, changed, Entries.get?_cons]
        by_cases same : head.1 = other
        · subst same
          rw [Entries.get?_eq_none_iff.mpr split.1, if_pos rfl, if_pos rfl]
        · rw [if_neg same, if_neg (Ne.symm same)]

private theorem takeField_ok {parent : Fields} (taken : Fields) {field : Text} {value : Value}
    (profiles : TextList (Entries.get? "profiles" parent))
    (own : field = "profiles" → TextList (some value)) :
    ∃ after, takeField parent taken field value = .ok after ∧ ∀ other, Entries.get? other after =
      if other = field then fieldOver parent field (Entries.get? field taken) value
      else Entries.get? other taken := by
  unfold takeField fieldOver
  by_cases attributes : field = "attributes"
  · refine ⟨taken, by rw [if_pos attributes], fun other => ?_⟩
    rw [if_pos attributes]
    by_cases same : other = field
    · rw [if_pos same, same]
    · rw [if_neg same]
  · rw [if_neg attributes, if_neg attributes]
    by_cases profile : field = "profiles"
    · rw [if_pos profile, if_pos profile, mergeProfiles_ok (by simp [profiles, own profile])]
      refine ⟨_, rfl, fun other => ?_⟩
      rw [Entries.get?_put, profile, List.flatMap_cons, List.flatMap_singleton]
    · rw [if_neg profile, if_neg profile]
      by_cases observables : field = "observables"
      · rw [if_pos observables, if_pos observables, observables]
        cases known : Entries.get? "observables" taken with
        | none => exact ⟨_, rfl, fun other => Entries.get?_put _ _ _ _⟩
        | some before =>
            cases before with
            | object mark fields =>
                unfold observablesOver
                by_cases object : value.isObject = true
                · simp only [object, if_true]
                  exact ⟨_, rfl, fun other => Entries.get?_put _ _ _ _⟩
                · simp only [object]
                  refine ⟨taken, rfl, fun other => ?_⟩
                  by_cases same : other = "observables"
                  · rw [if_pos same, same, known]
                    rfl
                  · rw [if_neg same]
            | null | bool _ | int _ | float _ | text _ | array _ =>
                exact ⟨_, rfl, fun other => Entries.get?_put _ _ _ _⟩
      · rw [if_neg observables, if_neg observables]
        exact ⟨_, rfl, fun other => Entries.get?_put _ _ _ _⟩

private theorem override_ok (key name : Text) {fields : Fields} {value : Value}
    (heritable : Heritable fields) (plain : Value.Plain value)
    (unsourced : ∀ mark own, value = .object mark own → Entries.get? "_source" own = none) :
    ∃ after, override key (.record fields) name value = .ok (.record after) ∧ Heritable after ∧
      ∀ other, Entries.get? other after =
        if other = name then some (attributeOver key (Entries.get? name fields) value)
        else Entries.get? other fields := by
  -- whatever is written is plain and names its source if it is an object
  have write {written : Value} (plainWritten : Value.Plain written)
      (sourcedWritten : ∀ mark own, written = .object mark own →
        ∃ source : Text, Entries.get? "_source" own = some (.text source)) :
      Heritable (Entries.put name written fields) := by
    refine ⟨heritable.plain.put plainWritten name, heritable.distinct.put name written, ?_⟩
    intro other mark own found
    rw [Entries.get?_put] at found
    by_cases same : other = name
    · rw [if_pos same] at found
      exact sourcedWritten mark own (Option.some.inj found)
    · rw [if_neg same] at found
      exact heritable.sourced other mark own found
  unfold override
  cases value with
  | object mark own =>
      obtain ⟨unmarked, plainOwn⟩ := Value.plain_object.mp plain
      subst unmarked
      have absent : Entries.get? "_source" own = none := unsourced none own rfl
      have fresh : Heritable (Entries.put name (sourced key (.object none own)) fields) := by
        apply write
        · exact Value.plain_object.mpr ⟨rfl, plainOwn.putNew (Value.plain_text key) _⟩
        · intro mark named same
          rw [sourced, Value.object.injEq] at same
          refine ⟨key, ?_⟩
          rw [← same.2, Entries.get?_putNew, if_pos ⟨rfl, absent⟩]
      cases known : Entries.get? name fields with
      | none =>
          refine ⟨_, ?_, fresh, fun other => Entries.get?_put _ _ _ _⟩
          simp only [Value.record, Value.asFields, ok_bind, known]
          rw [plain]
          rfl
      | some before =>
          cases before with
          | object mark base =>
              obtain ⟨unmarked, plainBase⟩ := Value.plain_object.mp (heritable.plain.of_get? known)
              subst unmarked
              obtain ⟨source, named⟩ := heritable.sourced name none base known
              have merged : Entries.get? "_source" (Value.mergeFields base own) =
                  some (.text source) := by
                rw [Value.get?_mergeFields_of_absent absent, named]
              have plainMerged : Value.Plain (.object none (Value.mergeFields base own)) :=
                Value.plain_object.mpr ⟨rfl, Value.PlainFields.merge base own plainBase plainOwn⟩
              have onto : attributeOver key (some (.object none base)) (.object none own) =
                  .object none (Value.mergeFields base own) := Value.merge_object none none base own
              rw [onto]
              refine ⟨_, ?_, write plainMerged ?_, fun other => Entries.get?_put _ _ _ _⟩
              · simp only [Value.record, Value.asFields, ok_bind, known]
                rw [plain]
                simp only [Value.merge_object, named, Value.isNull, Bool.false_eq_true, if_false,
                  Entries.put_of_get? merged, Value.putShared_of_plain plainMerged]
                rfl
              · intro mark fields same
                rw [Value.object.injEq] at same
                exact ⟨source, same.2 ▸ merged⟩
          | null | bool _ | int _ | float _ | text _ | array _ =>
              refine ⟨_, ?_, fresh, fun other => Entries.get?_put _ _ _ _⟩
              simp only [Value.record, Value.asFields, ok_bind, known]
              rw [plain]
              rfl
  | null | bool _ | int _ | float _ | text _ | array _ =>
      refine ⟨Entries.put name _ fields, ?_, write plain ?_, fun other => ?_⟩
      · simp only [Value.record, Value.asFields, ok_bind]
        cases Entries.get? name fields with
        | none => rfl
        | some before => cases before <;> rfl
      · intro mark own impossible
        cases impossible
      · rw [Entries.get?_put]
        cases Entries.get? name fields with
        | none => rfl
        | some before => cases before <;> rfl

private theorem takeFields_ok {parent item : Fields} (start : Fields) (stated : Stated item)
    (profiles : TextList (Entries.get? "profiles" parent)) :
    ∃ taken, item.foldlM (fun taken entry => takeField parent taken entry.1 entry.2) start =
        .ok taken ∧
      ∀ field, Entries.get? field taken = match Entries.get? field item with
        | none => Entries.get? field start
        | some value => fieldOver parent field (Entries.get? field start) value := by
  have each : ∀ entry ∈ item, ∀ state, True → ∃ after,
      takeField parent state entry.1 entry.2 = .ok after ∧ True ∧
        ∀ other, Entries.get? other after =
          if other = entry.1 then fieldOver parent entry.1 (Entries.get? entry.1 state) entry.2
          else Entries.get? other state := by
    intro entry member state _
    have own : entry.1 = "profiles" → TextList (some entry.2) := by
      intro same
      rw [← Entries.get?_of_mem stated.distinct member, same]
      exact stated.profiles
    obtain ⟨after, took, told⟩ := takeField_ok state profiles own
    exact ⟨after, took, trivial, told⟩
  obtain ⟨taken, took, _, told⟩ := foldlM_fields id (fieldOver parent) stated.distinct each trivial
  exact ⟨taken, took, told⟩

private theorem overrides_ok (key : Text) {item inherited : Fields} (stated : Stated item)
    (heritable : Heritable inherited) :
    ∃ attributes, (Entries.attributes item).foldlM
        (fun inherited entry => override key inherited entry.1 entry.2) (.record inherited) =
        .ok (.record attributes) ∧ Heritable attributes ∧
      ∀ name, Entries.get? name attributes = match Entries.get? name (Entries.attributes item) with
        | none => Entries.get? name inherited
        | some value => some (attributeOver key (Entries.get? name inherited) value) := by
  let view (state : Value) : Fields := match state with
    | .object _ fields => fields
    | _ => []
  let holds (state : Value) : Prop := ∃ fields, state = .record fields ∧ Heritable fields
  have each : ∀ entry ∈ Entries.attributes item, ∀ state, holds state → ∃ after,
      override key state entry.1 entry.2 = .ok after ∧ holds after ∧
        ∀ other, Entries.get? other (view after) =
          if other = entry.1 then
            some (attributeOver key (Entries.get? entry.1 (view state)) entry.2)
          else Entries.get? other (view state) := by
    rintro ⟨name, value⟩ member state ⟨fields, same, ready⟩
    subst same
    have unsourced : ∀ mark own, value = .object mark own →
        Entries.get? "_source" own = none := by
      intro mark own same
      have absent := stated.unsourced _ member
      rw [same] at absent
      exact absent
    obtain ⟨after, ran, readyAfter, told⟩ := override_ok key name ready
      (Value.plainFields_iff.mp stated.plain_attributes _ member) unsourced
    exact ⟨.record after, ran, ⟨after, rfl, readyAfter⟩, told⟩
  obtain ⟨_, ran, ⟨attributes, same, ready⟩, told⟩ :=
    foldlM_fields view (fun name before value => some (attributeOver key before value))
      stated.names each ⟨inherited, rfl, heritable⟩
  subst same
  exact ⟨attributes, ran, ready, told⟩

def observableFlag (kind : ItemKind) (parent item : Fields) : Option Bool :=
  if kind = .object then
    if Entries.has "observable" item then some false
    else if Entries.has "observable" parent then some true
    else none
  else none

/-- A field of an item over its parent, the flag of objects and the attributes apart. -/
def takenBelow (parent item : Fields) (field : Text) : Option Value :=
  let before := if field ∈ ownKeys then none else Entries.get? field parent
  match Entries.get? field item with
  | none => before
  | some value => fieldOver parent field before value

def fieldBelow (kind : ItemKind) (parent item : Fields) (field : Text) : Option Value :=
  if field = "observable_inherited?" then
    ((observableFlag kind parent item).map .bool).or (takenBelow parent item field)
  else takenBelow parent item field

theorem descend_ok (kind : ItemKind) (key : Text) {parent item inherited : Fields}
    (stated : Stated item) (heritable : Heritable inherited)
    (attributes : Entries.get? "attributes" parent = some (.record inherited))
    (profiles : TextList (Entries.get? "profiles" parent)) :
    ∃ flat attributes, descend kind key parent item = .ok flat ∧
      Entries.get? "attributes" flat = some (.record attributes) ∧ Heritable attributes ∧
      (∀ name, Entries.get? name attributes =
        (match Entries.get? name (Entries.attributes item) with
          | none => Entries.get? name inherited
          | some value => some (attributeOver key (Entries.get? name inherited) value)).filter
            fun value => !value.isNull) ∧
      ∀ field : Text, field ≠ "attributes" →
        Entries.get? field flat = fieldBelow kind parent item field := by
  let shared := ownKeys.foldl (fun fields key => Entries.erase key fields) parent
  have sharedFields (field : Text) : Entries.get? field shared =
      if field ∈ ownKeys then none else Entries.get? field parent := Entries.get?_foldl_erase ..
  have start : Value.orElse (Entries.get? "attributes" shared) (.record []) = .record inherited := by
    rw [sharedFields, if_neg (by decide), attributes]
    cases inherited <;> rfl
  obtain ⟨taken, took, takenFields⟩ := takeFields_ok (Entries.erase "attributes" shared) stated profiles
  obtain ⟨own, overrode, ready, ownAttributes⟩ :=
    overrides_ok key stated heritable
  have takenField (field : Text) (other : field ≠ "attributes") :
      Entries.get? field taken = takenBelow parent item field := by
    rw [takenFields, Entries.get?_erase, if_neg other, sharedFields]
    rfl
  have keptAttributes (name : Text) := (kept_get? ready.distinct name).trans
    (congrArg (Option.filter fun value => !value.isNull) (ownAttributes name))
  have flatField (field : Text) (other : field ≠ "attributes") := (Entries.get?_put_of_ne
    (Ne.symm other) (.record (kept own)) taken).trans (takenField field other)
  let flat := Entries.put "attributes" (.record (kept own)) taken
  have ended : descend kind key parent item =
      .ok (match observableFlag kind parent item with
        | some value => Entries.put "observable_inherited?" (.bool value) flat
        | none => flat) := by
    unfold descend
    dsimp only
    rw [start, took, ok_bind, stated.fieldsOrNone_attributes, ok_bind, overrode, ok_bind,
      Value.record, Value.asFields, ok_bind]
    cases kind with
    | object =>
        unfold observableFlag
        by_cases own? : Entries.has "observable" item = true
        · simp only [own?, if_true]
          rfl
        · by_cases inherited? : Entries.has "observable" parent = true
          · simp only [own?, inherited?, if_true]
            rfl
          · simp only [own?, inherited?, if_true]
            rfl
    | eventClass | profile => rfl
  refine ⟨_, kept own, ended, ?_, ready.kept, keptAttributes, ?_⟩
  · cases observableFlag kind parent item with
    | none => exact Entries.get?_put_self _ _ _
    | some value => rw [Entries.get?_put_of_ne (by decide), Entries.get?_put_self]
  · intro field other
    unfold fieldBelow
    cases observableFlag kind parent item with
    | none =>
        rw [flatField field other, Option.map_none, Option.none_or, ite_self]
    | some value =>
        rw [Entries.get?_put, flatField field other, Option.map_some, Option.some_or]

end Lineage

end EventSchema
