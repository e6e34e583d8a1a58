import EventSchema.Proofs.Graph.Closure
import EventSchema.Proofs.Lineage.Inheritance

/-!
Where an attribute comes from, and which object type it was given last.

The declarations of an attribute along a line of items are those below the last item that takes the
attribute away or sets it to no object. The oldest of them introduces the attribute, and the nearest one
that gives an object type is the one that counts. A flattened attribute names the item that introduced
it as its source and has the object type given last, whatever other objects the items share.
-/

set_option autoImplicit false

namespace EventSchema.Lineage

/-- The key of the item that introduces an attribute along a line. -/
def introducedAlong (name : Text) (line : List (Text × Fields)) : Option Text :=
  (declarations (mentions name line)).head?.map Prod.fst

/-- The object type that the last of some declarations gives, the oldest of which comes first. -/
def lastObjectType (declared : List (Text × Value)) : Option Value :=
  declared.reverse.findSome? fun declaration => Entries.get? "object_type" declaration.2.inner

/-- The object type that an attribute was given last along a line. -/
def objectTypeAlong (name : Text) (line : List (Text × Fields)) : Option Value :=
  lastObjectType (declarations (mentions name line))

/-- The declarations that count once an item has mentioned the attribute as well. -/
def declaredWith (declared : List (Text × Value)) (mention : Text × Value) : List (Text × Value) :=
  if mention.2.isObject then declared ++ [mention] else []

private theorem declarations_cons (mention : Text × Value) (older : List (Text × Value)) :
    declarations (mention :: older) = declaredWith (declarations older) mention := by
  unfold declarations declaredWith
  rw [List.takeWhile_cons]
  cases mention.2.isObject with
  | true => exact List.reverse_cons
  | false => rfl

private theorem lastObjectType_append (declared : List (Text × Value)) (mention : Text × Value) :
    lastObjectType (declared ++ [mention]) =
      (Entries.get? "object_type" mention.2.inner).or (lastObjectType declared) := by
  unfold lastObjectType
  rw [List.reverse_append, List.reverse_singleton, List.singleton_append, List.findSome?_cons]
  cases Entries.get? "object_type" mention.2.inner <;> rfl

theorem exists_introducedAlong {name : Text} {line : List (Text × Fields)} {type : Value}
    (given : objectTypeAlong name line = some type) : ∃ source, introducedAlong name line = some source := by
  unfold objectTypeAlong at given
  unfold introducedAlong
  cases declared : declarations (mentions name line) with
  | nil =>
      rw [declared] at given
      cases given
  | cons first later => exact ⟨first.1, rfl⟩

/-- What an attribute that came of some declarations tells of them: it is no object without any, and
otherwise it names the first one as its source and has the object type that was given last. -/
def Tells : List (Text × Value) → Option Value → Prop
  | [], found => ∀ value ∈ found, value.isObject = false
  | (source, first) :: later, found => ∃ field, found = some (.record field) ∧ Entries.Distinct field ∧
      Entries.get? "_source" field = some (.text source) ∧
      ∀ text, lastObjectType ((source, first) :: later) = some (.text text) →
        Entries.get? "object_type" field = some (.text text)

/-- An attribute as an item declares it: in one place, and without a source. -/
def Declares (value : Value) : Prop :=
  ∀ mark field, value = .object mark field →
    mark = none ∧ Entries.Distinct field ∧ Entries.get? "_source" field = none

namespace Tells

variable {declared : List (Text × Value)} {found : Option Value}

/-- Keeping shared objects in step leaves sources and object types as they are. -/
theorem renewed (tells : Tells declared found) {onValue : Value → Value} {onFields : Fields → Fields}
    (renews : Value.Renews onValue onFields) : Tells declared (found.map onValue) := by
  cases declared with
  | nil =>
      intro value member
      obtain ⟨before, known, rfl⟩ := Option.map_eq_some_iff.mp member
      have plain := tells before known
      rw [renews.leaf before plain]
      exact plain
  | cons first later =>
      obtain ⟨field, rfl, distinct, source, type⟩ := tells
      refine ⟨onFields field, ?_, renews.distinct distinct, ?_, fun text given => ?_⟩
      · rw [Option.map_some, renews.record]
      · rw [renews.found, source, Option.map_some, renews.leaf _ rfl]
      · rw [renews.found, type text given, Option.map_some, renews.leaf _ rfl]

theorem kept (tells : Tells declared found) :
    Tells declared (found.filter fun value => !value.isNull) := by
  cases declared with
  | nil =>
      intro value member
      exact tells value (Option.filter_eq_some_iff.mp member).1
  | cons first later =>
      obtain ⟨field, rfl, rest⟩ := tells
      exact ⟨field, rfl, rest⟩

theorem alone (key : Text) {value : Value} (declares : Declares value)
    {sourcedAs : Value} (written : sourcedAs = sourced key value ∨ sourcedAs = sourced key value.unshared) :
    Tells (declaredWith [] (key, value)) (some sourcedAs) := by
  unfold declaredWith
  cases value with
  | object mark field =>
      obtain ⟨rfl, distinct, absent⟩ := declares mark field rfl
      have introduced {fields : Fields} (distinct : Entries.Distinct fields)
          (absent : Entries.get? "_source" fields = none)
          (type : ∀ text, Entries.get? "object_type" field = some (.text text) →
            Entries.get? "object_type" fields = some (.text text)) :
          Tells [(key, .object none field)] (some (sourced key (.object none fields))) := by
        refine ⟨_, rfl, distinct.putNew _ _, ?_, fun text given => ?_⟩
        · rw [Entries.get?_putNew, if_pos ⟨rfl, absent⟩]
        · rw [Entries.get?_putNew, if_neg fun both => absurd both.1 (by decide)]
          refine type text ?_
          change lastObjectType ([] ++ [(key, .object none field)]) = _ at given
          rw [lastObjectType_append] at given
          cases found : Entries.get? "object_type" field with
          | none =>
              rw [Value.inner, found] at given
              cases given
          | some type =>
              rw [Value.inner, found] at given
              exact given
      rcases written with rfl | rfl
      · exact introduced distinct absent fun _ given => given
      · rw [Value.unshared]
        refine introduced ?_ ?_ fun text given => ?_
        · rw [Entries.Distinct, Value.keys_unsharedFields]
          exact distinct
        · rw [Value.get?_unsharedFields, absent, Option.map_none]
        · rw [Value.get?_unsharedFields, given]
          rfl
  | null | bool _ | int _ | float _ | text _ | array _ =>
      rintro _ ⟨⟩
      rcases written with rfl | rfl <;> rfl

end Tells

/-- A declaration over an inherited attribute leaves it its source, and gives it the object type that it
names. -/
theorem Tells.writtenOver {declared : List (Text × Value)} {key : Text} {inner own : Option Nat}
    {base given written : Fields} (tells : Tells declared (some (.object inner base)))
    (distinct : Entries.Distinct given) (wrote : WrittenOver base given written) :
    Tells (declaredWith declared (key, .object own given)) (some (.object inner written)) := by
  cases declared with
  | nil => cases tells _ rfl
  | cons first later =>
      obtain ⟨field, same, known, source, type⟩ := tells
      cases same
      refine ⟨written, rfl, wrote.distinct known, wrote.source _ source rfl, fun text last => ?_⟩
      change lastObjectType ((first :: later) ++ [(key, .object own given)]) = _ at last
      rw [lastObjectType_append, Value.inner] at last
      have unshared : Entries.Distinct (Value.unsharedFields given) := by
        rw [Entries.Distinct, Value.keys_unsharedFields]
        exact distinct
      rw [wrote.merged _ (by decide), Value.get?_mergeFields _ _ unshared, Value.get?_unsharedFields]
      cases named : Entries.get? "object_type" given with
      | none =>
          rw [named, Option.none_or] at last
          exact type text last
      | some value =>
          rw [named, Option.some_or, Option.some.injEq] at last
          rw [last, Option.map_some, Value.unshared]
          · cases Entries.get? "object_type" base with
            | none => rfl
            | some before => exact congrArg some (Value.merge_apart (Or.inr rfl))
          · simp

private theorem tells_override {key name : Text} {mark : Option Nat} {fields : Fields} {value after : Value}
    (declares : Declares value) (ran : override key (.object mark fields) name value = .ok after) :
    ∃ overridden, after = .record overridden ∧ ∀ other declared, Tells declared (Entries.get? other fields) →
      Tells (if other = name then declaredWith declared (key, value) else declared)
        (Entries.get? other overridden) := by
  rcases override_cases ran with
    ⟨inner, base, own, given, written, known, rfl, rfl, wrote⟩ | ⟨object, plain, rfl⟩ | ⟨plain, rfl⟩
  · refine ⟨_, rfl, fun other declared tells => ?_⟩
    rw [Value.putShared, Value.get?_refreshFields]
    refine Tells.renewed ?_ (Value.renews_refresh (Value.isObject_of_mem_occurrences _))
    rw [Entries.get?_put]
    by_cases same : other = name
    · rw [if_pos same, if_pos same]
      rw [same, known] at tells
      exact tells.writtenOver (declares own given rfl).2.1 wrote
    · rw [if_neg same, if_neg same]
      exact tells
  · refine ⟨_, rfl, fun other declared tells => ?_⟩
    rw [Entries.get?_put]
    by_cases same : other = name
    · have none : declared = [] := by
        cases declared with
        | nil => rfl
        | cons first later =>
            obtain ⟨field, found, _⟩ := tells
            cases plain _ (same ▸ found)
      rw [if_pos same, if_pos same, none]
      exact Tells.alone key declares (Or.inr rfl)
    · rw [if_neg same, if_neg same]
      exact tells
  · refine ⟨_, rfl, fun other declared tells => ?_⟩
    rw [Entries.get?_put]
    by_cases same : other = name
    · rw [if_pos same, if_pos same, declaredWith, plain, if_neg Bool.false_ne_true]
      rintro _ ⟨⟩
      exact plain
    · rw [if_neg same, if_neg same]
      exact tells

/-- All attributes of an item over the inherited ones. -/
theorem tells_overrides {key : Text} {mark last : Option Nat} {own inherited overridden : Fields}
    (distinct : Entries.Distinct own) (declares : ∀ entry ∈ own, Declares entry.2)
    (ran : own.foldlM (fun inherited entry => override key inherited entry.1 entry.2)
      (.object mark inherited) = .ok (.object last overridden)) {name : Text} {declared : List (Text × Value)}
    (tells : Tells declared (Entries.get? name inherited)) :
    Tells (match Entries.get? name own with
      | some value => declaredWith declared (key, value)
      | none => declared) (Entries.get? name overridden) := by
  induction own generalizing mark inherited declared with
  | nil =>
      cases pure_eq_ok.mp ran
      exact tells
  | cons head rest ih =>
      obtain ⟨fresh, others⟩ := List.nodup_cons.mp distinct
      obtain ⟨first, later⟩ := List.forall_mem_cons.mp declares
      rw [List.foldlM_cons] at ran
      obtain ⟨middle, step, ran⟩ := bind_eq_ok.mp ran
      obtain ⟨fields, rfl, told⟩ := tells_override first step
      have onward := ih others later ran (told name declared tells)
      rw [Entries.get?_cons]
      by_cases same : head.1 = name
      · rw [if_pos same]
        rw [if_pos same.symm, Entries.get?_eq_none_iff.mpr (same ▸ fresh)] at onward
        exact onward
      · rw [if_neg same]
        rw [if_neg (Ne.symm same)] at onward
        exact onward

private theorem declarations_line (name key : Text) (item : Fields) (above : List (Text × Fields)) :
    declarations (mentions name ((key, item) :: above)) =
      match Entries.get? name (Entries.attributes item) with
      | some value => declaredWith (declarations (mentions name above)) (key, value)
      | none => declarations (mentions name above) := by
  rw [mentions_cons]
  cases Entries.get? name (Entries.attributes item) with
  | none => rfl
  | some value => exact declarations_cons _ _

theorem tells_of_inherit {kind : ItemKind} {items : Fields} (authored : AuthoredDocument items)
    {line : List (Text × Fields)} {flat : Fields} (ancestry : Ancestry items line)
    (inherited : inherit kind line = .ok flat) (name : Text) :
    Tells (declarations (mentions name line)) (Entries.get? name (Entries.attributes flat)) := by
  have hereditary := hereditary_distinct fun key mark item found =>
    authored.names key mark item (Entries.mem_of_get? found)
  have declares {key : Text} {mark : Option Nat} {item : Fields}
      (found : Entries.get? key items = some (.object mark item)) :
      ∀ entry ∈ Entries.attributes item, Declares entry.2 := fun entry member own field shape =>
    authored.attributes key mark item (Entries.mem_of_get? found) entry.1 own field (shape ▸ member)
  have alone {key : Text} {mark : Option Nat} {item flat : Fields}
      (found : Entries.get? key items = some (.object mark item))
      (ran : standalone key item = .ok flat) :
      Tells (declarations (mentions name [(key, item)])) (Entries.get? name (Entries.attributes flat)) := by
    have names := authored.names key mark item (Entries.mem_of_get? found)
    rw [attributes_of_standalone ran, Entries.get?_mapValues, kept_get? names, declarations_line]
    cases known : Entries.get? name (Entries.attributes item) with
    | none => exact nofun
    | some value =>
        have told := (Tells.alone key (declares found _ (Entries.mem_of_get? known)) (Or.inl rfl)).kept
        cases value <;> exact told
  induction ancestry generalizing flat with
  | @root key mark item found start =>
      rw [inherit] at inherited
      split at inherited
      · rename_i resolved
        rw [authored.fresh key mark item (Entries.mem_of_get? found)] at resolved
        cases resolved
      · split at inherited
        · exact alone found inherited
        · obtain ⟨single, ran, same⟩ := map_eq_ok.mp inherited
          rw [← same, resolved, Entries.attributes_put_of_ne (by decide)]
          exact alone found ran
  | @child key mark item parent above found fresh next older ih =>
      rw [inherit] at inherited
      obtain ⟨ancestor, computed, rest⟩ := bind_eq_ok.mp inherited
      obtain ⟨below, ran, same⟩ := map_eq_ok.mp rest
      obtain ⟨_, _, overridden, overrides, attributes⟩ := attributes_of_descend ran
      have names := authored.names key mark item (Entries.mem_of_get? found)
      have told := tells_overrides names (declares found) overrides (ih computed)
      rw [← same, resolved, Entries.attributes_put_of_ne (by decide), attributes, declarations_line]
      have before : Flat kind items parent.1 ancestor := ⟨parent.2, above, older, computed⟩
      rw [kept_get? (hereditary.overrides found (hereditary.flat before) overrides)]
      exact told.kept

end EventSchema.Lineage
