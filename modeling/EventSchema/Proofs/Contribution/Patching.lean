import Mathlib.Data.List.Induction
import EventSchema.Proofs.Contribution.Patched
import EventSchema.Proofs.Problems
import EventSchema.Proofs.Profiles
import EventSchema.Proofs.Walk

/-!
What patches make of the items that they change.

The patches of an item are applied one after another. An attribute comes to what its values make when they
are laid over each other, and an object names the last patch that gave it a value. The profiles are joined,
a few fields are replaced, and the item lists those that patched it. Only a patch of what an extension owns
stops the pass.
-/

set_option autoImplicit false

namespace EventSchema

namespace Value

private theorem addNew_texts (texts : List Text) : addNew [] (texts.map .text) = texts.eraseDups.map .text := by
  induction texts using List.reverseRecOn with
  | nil => rfl
  | append_singleton before last ih =>
      have known : (Value.text last).isIn (before.eraseDups.map .text) = decide (last ∈ before) := by
        rw [Bool.eq_iff_iff, isIn_iff, decide_eq_true_eq]
        constructor
        · rintro ⟨item, member, same⟩
          obtain ⟨text, known, rfl⟩ := List.mem_map.mp member
          cases same_text.mp same
          exact List.mem_eraseDups.mp known
        · intro member
          exact ⟨_, List.mem_map_of_mem (List.mem_eraseDups.mpr member), same_text.mpr rfl⟩
      rw [List.map_append, addNew_append, ih, List.map_singleton, addNew_cons, addNew_nil, known,
        List.eraseDups_append]
      by_cases member : last ∈ before
      · simp [member, List.removeAll]
      · simp [member, List.removeAll, List.eraseDups_cons]

end Value

def textsOf (value : Option Value) : List Text := (listed value).filterMap Value.text?

private theorem textsOf_array (texts : List Text) : textsOf (some (.array (texts.map .text))) = texts := by
  rw [textsOf, listed, List.filterMap_map]
  exact List.filterMap_some

private theorem TextList.listed_eq {value : Option Value} (texts : TextList value) :
    listed value = (textsOf value).map .text := by
  cases value with
  | none => rfl
  | some given =>
      obtain ⟨names, rfl⟩ := texts given rfl
      rw [textsOf_array, listed]

private theorem textList_texts (texts : List Text) : TextList (some (.array (texts.map .text))) := by
  rintro _ ⟨⟩
  exact ⟨texts, rfl⟩

namespace Patch

open Value

/-! ### What is said of the result -/

def extensionOf (patch : Fields) : Text := ((Entries.get? "extension" patch).bind Value.text?).getD ∅

/-- A value laid over what is there: an object is merged into an object, anything else takes its place. -/
def laidOver (before : Option Value) (value : Value) : Value :=
  match before with
  | some old => merge old value
  | none => value

def overlaid (base : Option Value) (values : List Value) : Option Value :=
  values.foldl (fun before value => some (laidOver before value)) base

def givenTo (field : Text) (patches : List Fields) : List (Fields × Value) :=
  patches.filterMap fun patch => (Entries.get? field (Entries.attributes patch)).map (patch, ·)

/-- An object that is another one, except that it names the patch which gave it its last value. -/
def Signed (key : Text) (final raw : Value) : Prop :=
  ∃ fields inside, final = .record fields ∧ raw = .record inside ∧
    Entries.get? "_source_patched" fields = some (.text key) ∧
    Entries.erase "_source_patched" fields = Entries.erase "_source_patched" inside

/-- What an attribute comes to if patches of an item give values to it: they are laid over each other, and an
object names the patch that gave it its last value. -/
def Overlaid (name : Text) (base : Option Value) (given : List (Fields × Value)) (result : Option Value) : Prop :=
  match given.getLast? with
  | none => result = base
  | some (patch, value) => ∃ final raw, result = some final ∧ overlaid base (given.map Prod.snd) = some raw ∧
      if value.isObject then Signed (Scope.within (extensionOf patch) name) final raw
      else final = value ∧ raw = value

def given (key : Text) (patch : Fields) : Option Value := (Entries.get? key patch).filter fun value => !value.isNull

/-- What constraints come to if others are given: empty ones take them away. -/
def constrained (base given : Option Value) : Option Value :=
  match given with
  | some constraints => if constraints.truthy then some constraints else none
  | none => base

structure Patched (name : Text) (item : Fields) (patches : List Fields) (result : Fields) : Prop where
  attributes : ∀ field, Overlaid name (Entries.get? field (Entries.attributes item)) (givenTo field patches)
    (Entries.get? field (Entries.attributes result))
  profiles : Entries.get? "profiles" result =
    if patches.any fun patch => Value.given (Entries.get? "profiles" patch) then
      some (.array ((textsOf (Entries.get? "profiles" item) ++
        patches.flatMap fun patch => textsOf (Entries.get? "profiles" patch)).eraseDups.map .text))
    else Entries.get? "profiles" item
  replaced : ∀ key ∈ replacedKeys,
    Entries.get? key result = ((patches.filterMap (given key)).getLast?).or (Entries.get? key item)
  constraints : Entries.get? "constraints" result =
    constrained (Entries.get? "constraints" item) (patches.filterMap (Entries.get? "constraints")).getLast?
  patchers : ∃ sorted : List Text, sorted.Perm (patches.map extensionOf) ∧
    sorted.Pairwise (fun first later => first.le later = true) ∧
    Entries.get? "_patched_by" result = if patches.isEmpty then none else some (.array (sorted.map .text))
  others : Entries.SameBeside writtenKeys item result
  shape : ∀ value, Entries.get? "attributes" result = some value → value.isObject = true

/-! ### What is given -/

/-- A patch as an extension gives it: its attributes are an object that shares nothing, and its profiles are a
list of texts. -/
structure Formed (patch : Fields) : Prop where
  owned : ∃ owner, Entries.get? "extension" patch = some (.text owner)
  attributes : ∀ value, Entries.get? "attributes" patch = some value → value.isObject = true
  unshared : Unshared (Entries.attributes patch)
  distinct : ∀ entry ∈ Entries.attributes patch, Entries.Distinct entry.2.inner
  profiles : TextList (Entries.get? "profiles" patch)

structure Patchable (item : Fields) : Prop where
  attributes : ∀ value, Entries.get? "attributes" item = some value → value.isObject = true
  unshared : Unshared (Entries.attributes item)
  profiles : TextList (Entries.get? "profiles" item)
  patchers : TextList (Entries.get? "_patched_by" item)

variable {name : Text} {patch item result : Fields}

theorem Formed.extension (formed : Formed patch) :
    Entries.get? "extension" patch = some (.text (extensionOf patch)) := by
  obtain ⟨owner, owned⟩ := formed.owned
  rw [extensionOf, owned]
  rfl

private theorem Formed.at_extension (formed : Formed patch) :
    (Value.record patch).at_ "extension" = .ok (.text (extensionOf patch)) := by
  rw [Value.record, Value.at_, formed.extension]

/-! ### One patch -/

def joined (patch item : Fields) : Fields :=
  if Value.given (Entries.get? "profiles" patch) then
    Entries.put "profiles" (.array ((textsOf (Entries.get? "profiles" item) ++
      textsOf (Entries.get? "profiles" patch)).eraseDups.map .text)) item
  else item

private theorem addPatcher_eq (texts : TextList (Entries.get? "_patched_by" item)) (owner : Text) :
    addPatcher (.text owner) item = .ok (Entries.put "_patched_by"
      (.array ((Text.sort (textsOf (Entries.get? "_patched_by" item) ++ [owner])).map .text)) item) := by
  have read (known : List Text) :
      (known.map Value.text ++ [Value.text owner]).mapM Value.text? = some (known ++ [owner]) := by
    induction known with
    | nil => rfl
    | cons text rest ih =>
        rw [List.map_cons, List.cons_append, List.mapM_cons, ih]
        rfl
  unfold addPatcher
  cases found : Entries.get? "_patched_by" item with
  | none => rfl
  | some patchers =>
      rw [found] at texts
      obtain ⟨known, rfl⟩ := texts patchers rfl
      rw [textsOf_array]
      simp only [Option.getD_some, read]

private theorem get?_replace (key field : Text) (patch item : Fields) :
    Entries.get? field (replace patch item key) =
      if field = key then (given key patch).or (Entries.get? field item) else Entries.get? field item := by
  unfold replace given
  cases Entries.get? key patch with
  | none => exact (ite_self _).symm
  | some value =>
      dsimp only
      cases null : value.isNull with
      | true => simp [Option.filter, null]
      | false => simp [Option.filter, null, Entries.get?_put]

private theorem get?_replaceEach (keys : List Text) (field : Text) (patch item : Fields) :
    Entries.get? field (keys.foldl (replace patch) item) =
      if field ∈ keys then (given field patch).or (Entries.get? field item) else Entries.get? field item := by
  induction keys generalizing item with
  | nil => rfl
  | cons key rest ih =>
      rw [List.foldl_cons, ih, get?_replace]
      by_cases here : field = key
      · subst here
        cases given field patch <;> simp
      · simp [here]

private theorem get?_replaceConstraints (field : Text) (patch item : Fields) :
    Entries.get? field (replaceConstraints patch item) =
      if field = "constraints" then constrained (Entries.get? field item) (Entries.get? "constraints" patch)
      else Entries.get? field item := by
  unfold replaceConstraints constrained
  cases Entries.get? "constraints" patch with
  | none => exact (ite_self _).symm
  | some constraints =>
      dsimp only
      cases constraints.truthy with
      | true => rw [if_pos rfl, if_pos rfl, Entries.get?_put]
      | false => rw [if_neg Bool.false_ne_true, if_neg Bool.false_ne_true, Entries.get?_erase]

private theorem sameBeside_joined (patch item : Fields) : Entries.SameBeside ["profiles"] item (joined patch item) := by
  unfold joined
  split
  · exact (Entries.SameBeside.refl _ item).put (List.mem_singleton_self _) _
  · exact .refl _ item

private theorem exists_orEmpty (item : Fields) {key : Text}
    (objects : ∀ value, Entries.get? key item = some value → value.isObject = true) :
    ∃ mark fields, Entries.orEmpty key item = .object mark fields := by
  rw [Entries.orEmpty, Entries.getOr]
  cases found : Entries.get? key item with
  | none => exact ⟨none, [], rfl⟩
  | some value =>
      have object := objects value found
      cases value with
      | object mark fields => exact ⟨mark, fields, rfl⟩
      | null | bool _ | int _ | float _ | text _ | array _ => cases object

/-- Whatever is written before the list of those that patched an item leaves it alone. -/
theorem get?_patchers_replaced (patch : Fields) (attributes : Value) (listed : Fields) :
    Entries.get? "_patched_by" (replaceConstraints patch (replacedKeys.foldl (replace patch)
      (Entries.put "attributes" attributes listed))) = Entries.get? "_patched_by" listed := by
  rw [get?_replaceConstraints, if_neg (by decide), get?_replaceEach, if_neg (by decide),
    Entries.get?_put_of_ne (by decide)]

private theorem applyTo_eq (name : Text) (formed : Formed patch) (patchable : Patchable item) :
    ∃ attributes, attributes.isObject = true ∧
      applyTo name patch item = .ok (Entries.put "_patched_by" (.array ((Text.sort
          (textsOf (Entries.get? "_patched_by" item) ++ [extensionOf patch])).map .text))
        (replaceConstraints patch (replacedKeys.foldl (replace patch)
          (Entries.put "attributes" attributes (joined patch item))))) := by
  unfold applyTo
  rw [formed.at_extension, ok_bind]
  extract_lets merge
  have untouched := sameBeside_joined patch item
  obtain ⟨mark, fields, opened⟩ := exists_orEmpty (joined patch item) fun value found =>
    patchable.attributes value ((untouched "attributes" (by decide)).symm.trans found)
  obtain ⟨changes, read⟩ := Lineage.fieldsOrNone_of_objects formed.attributes
  have finish (attributes : Value) : addPatcher (.text (extensionOf patch)) (replaceConstraints patch
      (replacedKeys.foldl (replace patch) (Entries.put "attributes" attributes (joined patch item)))) =
        .ok (Entries.put "_patched_by" (.array ((Text.sort
          (textsOf (Entries.get? "_patched_by" item) ++ [extensionOf patch])).map .text))
        (replaceConstraints patch (replacedKeys.foldl (replace patch)
          (Entries.put "attributes" attributes (joined patch item))))) := by
    have patchers : Entries.get? "_patched_by" (replaceConstraints patch (replacedKeys.foldl (replace patch)
        (Entries.put "attributes" attributes (joined patch item)))) = Entries.get? "_patched_by" item :=
      (get?_patchers_replaced patch attributes _).trans (untouched "_patched_by" (by decide))
    rw [addPatcher_eq (patchers ▸ patchable.patchers), patchers]
  obtain ⟨attributes, object, ran⟩ : ∃ attributes, attributes.isObject = true ∧
      merge (joined patch item) = .ok (Entries.put "_patched_by" (.array ((Text.sort
          (textsOf (Entries.get? "_patched_by" item) ++ [extensionOf patch])).map .text))
        (replaceConstraints patch (replacedKeys.foldl (replace patch)
          (Entries.put "attributes" attributes (joined patch item))))) := by
    simp only [merge, read, ok_bind]
    split
    · exact ⟨_, by rw [opened]; rfl, finish _⟩
    · rw [opened]
      exact ⟨_, rfl, finish _⟩
  refine ⟨attributes, object, Eq.trans ?_ ran⟩
  have texts := formed.profiles
  unfold joined
  cases found : Entries.get? "profiles" patch with
  | none => rfl
  | some profiles =>
      rw [found] at texts
      by_cases nonempty : profiles.truthy = true
      · have each : ∀ list ∈ [Entries.get? "profiles" item, some profiles], TextList list := by
          simp only [List.mem_cons, List.not_mem_nil, or_false, forall_eq_or_imp, forall_eq]
          exact ⟨patchable.profiles, texts⟩
        rw [if_pos (show Value.given (some profiles) = true from nonempty)]
        dsimp only
        rw [if_pos nonempty, mergeProfiles_ok each, ok_bind, pure_bind, List.flatMap_cons, List.flatMap_singleton,
          patchable.profiles.listed_eq, texts.listed_eq, ← List.map_append, Value.addNew_texts]
      · rw [if_neg (show ¬Value.given (some profiles) = true from nonempty)]
        dsimp only
        rw [if_neg nonempty, pure_bind]

structure Applied (patch item result : Fields) : Prop where
  profiles : Entries.get? "profiles" result = Entries.get? "profiles" (joined patch item)
  replaced : ∀ key ∈ replacedKeys, Entries.get? key result = (given key patch).or (Entries.get? key item)
  constraints : Entries.get? "constraints" result =
    constrained (Entries.get? "constraints" item) (Entries.get? "constraints" patch)
  patchers : Entries.get? "_patched_by" result = some (.array ((Text.sort
    (textsOf (Entries.get? "_patched_by" item) ++ [extensionOf patch])).map .text))
  attributes : ∀ value, Entries.get? "attributes" result = some value → value.isObject = true

private theorem applied_applyTo (formed : Formed patch) (patchable : Patchable item)
    (ran : applyTo name patch item = .ok result) : Applied patch item result := by
  obtain ⟨attributes, object, ended⟩ := applyTo_eq name formed patchable
  cases ran.symm.trans ended
  have untouched := sameBeside_joined patch item
  constructor
  · rw [Entries.get?_put_of_ne (by decide), get?_replaceConstraints, if_neg (by decide), get?_replaceEach,
      if_neg (by decide), Entries.get?_put_of_ne (by decide)]
  · intro key member
    have apart : ∀ key ∈ replacedKeys, key ≠ "_patched_by" ∧ key ≠ "constraints" ∧ key ≠ "attributes" ∧
        key ∉ [("profiles" : Text)] := by decide
    obtain ⟨patchers, constraints, attributes, profiles⟩ := apart key member
    rw [Entries.get?_put_of_ne patchers.symm, get?_replaceConstraints, if_neg constraints, get?_replaceEach,
      if_pos member, Entries.get?_put_of_ne attributes.symm, untouched key profiles]
  · rw [Entries.get?_put_of_ne (by decide), get?_replaceConstraints, if_pos rfl, get?_replaceEach,
      if_neg (by decide), Entries.get?_put_of_ne (by decide), untouched "constraints" (by decide)]
  · exact Entries.get?_put_self ..
  · intro value found
    rw [Entries.get?_put_of_ne (by decide), get?_replaceConstraints, if_neg (by decide), get?_replaceEach,
      if_neg (by decide), Entries.get?_put_self] at found
    cases found
    exact object

theorem Applied.textList (applied : Applied patch item result) (patchable : Patchable item) :
    TextList (Entries.get? "profiles" result) := by
  rw [applied.profiles, joined]
  split
  · rw [Entries.get?_put_self]
    exact textList_texts _
  · exact patchable.profiles

theorem Patchable.applyTo (patchable : Patchable item) (formed : Formed patch)
    (ran : applyTo name patch item = .ok result) : Patchable result := by
  have applied := applied_applyTo formed patchable ran
  obtain ⟨_, _, unshared, _⟩ := attributes_applyTo patchable.unshared formed.unshared ran
  exact ⟨applied.attributes, unshared, applied.textList patchable, applied.patchers ▸ textList_texts _⟩

/-! ### An attribute -/

private theorem overlaid_append (base : Option Value) (values : List Value) (value : Value) :
    overlaid base (values ++ [value]) = some (laidOver (overlaid base values) value) := by
  rw [overlaid, List.foldl_append]
  rfl

/-- The signature is all that a signed patch of an object makes different. -/
theorem signed_merge {fields inside : Fields} (key : Text) {added : Fields} (distinct : Entries.Distinct added)
    (same : Entries.erase "_source_patched" fields = Entries.erase "_source_patched" inside) :
    Signed key (merge (.record fields) (sourced key (.record added))) (merge (.record inside) (.record added)) := by
  refine ⟨_, _, merge_object .., merge_object .., ?_, ?_⟩
  · rw [get?_mergeFields _ _ (distinct.put _ _), Entries.get?_put_self]
    cases Entries.get? "_source_patched" fields with
    | none => rfl
    | some old => exact congrArg some (merge_apart (Or.inr rfl))
  · rw [erase_mergeFields, erase_mergeFields, Entries.erase_put_self, same]

/-- An object that a signed patch gives. -/
theorem signed_sourced (key : Text) (added : Fields) : Signed key (sourced key (.record added)) (.record added) :=
  ⟨_, _, rfl, rfl, Entries.get?_put_self .., Entries.erase_put_self ..⟩

/-- What is under an attribute is what its values make, except for the signature of a patch. -/
theorem Overlaid.cases {base result : Option Value} {given : List (Fields × Value)}
    (overlay : Overlaid name base given result) :
    result = overlaid base (given.map Prod.snd) ∨
      ∃ key final raw, result = some final ∧ overlaid base (given.map Prod.snd) = some raw ∧ Signed key final raw := by
  unfold Overlaid at overlay
  split at overlay
  · rename_i empty
    rw [List.getLast?_eq_none_iff.mp empty, overlay]
    exact .inl rfl
  · obtain ⟨final, raw, rfl, made, told⟩ := overlay
    split at told
    · exact .inr ⟨_, final, raw, rfl, made, told⟩
    · rw [made, told.1, told.2]
      exact .inl rfl

theorem Overlaid.append {base before : Option Value} {given : List (Fields × Value)} {value : Value}
    (overlay : Overlaid name base given before) (plainBefore : ∀ old ∈ before, Plain old) (plain : Plain value)
    (distinct : Entries.Distinct value.inner) :
    Overlaid name base (given ++ [(patch, value)]) (some (changedTo (extensionOf patch) name before value)) := by
  unfold Overlaid
  rw [List.getLast?_concat]
  refine ⟨_, _, rfl, by rw [List.map_append, List.map_singleton, overlaid_append], ?_⟩
  cases object : value.isObject with
  | false =>
      have bare : sourced (Scope.within (extensionOf patch) name) value = value := by
        cases value with
        | object mark fields => cases object
        | null | bool _ | int _ | float _ | text _ | array _ => rfl
      have alone (old : Option Value) : laidOver old value = value := by
        cases old with
        | none => rfl
        | some old => exact merge_apart (Or.inr object)
      rw [if_neg Bool.false_ne_true]
      refine ⟨?_, alone _⟩
      unfold changedTo
      rw [bare]
      exact alone before
  | true =>
      rw [if_pos rfl]
      cases value with
      | null | bool _ | int _ | float _ | text _ | array _ => cases object
      | object mark added =>
          obtain ⟨rfl, _⟩ := plain_object.mp plain
          rcases overlay.cases with same | ⟨key, final, raw, rfl, made, fields, inside, rfl, rfl, _, beside⟩
          · rw [← same]
            cases before with
            | none => exact signed_sourced _ added
            | some old =>
                cases whole : old.isObject with
                | false =>
                    rw [changedTo, laidOver, merge_apart (Or.inl whole), merge_apart (Or.inl whole)]
                    exact signed_sourced _ added
                | true =>
                    cases old with
                    | null | bool _ | int _ | float _ | text _ | array _ => cases whole
                    | object mark fields =>
                        obtain ⟨rfl, _⟩ := plain_object.mp (plainBefore _ rfl)
                        exact signed_merge _ distinct rfl
          · rw [made]
            exact signed_merge _ distinct beside

/-! ### The patches of one item -/

private theorem givenTo_append (field : Text) (patches : List Fields) (patch : Fields) :
    givenTo field (patches ++ [patch]) = givenTo field patches ++
      ((Entries.get? field (Entries.attributes patch)).map (patch, ·)).toList := by
  rw [givenTo, List.filterMap_append, ← givenTo]
  cases told : Entries.get? field (Entries.attributes patch) <;> simp [told]

/-- What is said last is said by the last patch, or else by those before it. -/
theorem getLast?_filterMap_append {α β : Type} (f : α → Option β) (items : List α) (item : α) :
    ((items ++ [item]).filterMap f).getLast? = (f item).or (items.filterMap f).getLast? := by
  rw [List.filterMap_append]
  cases said : f item with
  | none => rw [List.filterMap_cons, said, List.filterMap_nil, List.append_nil, Option.none_or]
  | some value => rw [List.filterMap_cons, said, List.filterMap_nil, List.getLast?_concat, Option.some_or]

private theorem constrained_constrained (base first later : Option Value) :
    constrained (constrained base first) later = constrained base (later.or first) := by
  cases later with
  | none => rfl
  | some value => rfl

private theorem textsOf_of_not_given {value : Option Value} (texts : TextList value)
    (missing : Value.given value = false) :
    textsOf value = [] := by
  cases value with
  | none => rfl
  | some profiles =>
      obtain ⟨known, rfl⟩ := texts profiles rfl
      cases known with
      | nil => rfl
      | cons text rest => cases missing

/-- Repeats that are dropped before more is joined are dropped with it. -/
theorem eraseDups_append_eraseDups (first later : List Text) :
    (first.eraseDups ++ later).eraseDups = (first ++ later).eraseDups := by
  have texts : (first.eraseDups ++ later).eraseDups.map Value.text = (first ++ later).eraseDups.map Value.text := by
    rw [← addNew_texts, ← addNew_texts, List.map_append, ← addNew_texts, addNew_addNew, List.map_append]
  exact (List.map_injective_iff.mpr fun _ _ same => Value.text.inj same) texts

theorem Patched.nil (name : Text) (patchable : Patchable item) (unpatched : Entries.get? "_patched_by" item = none) :
    Patched name item [] item where
  attributes _ := rfl
  profiles := rfl
  replaced _ _ := rfl
  constraints := rfl
  patchers := ⟨[], .nil, .nil, unpatched⟩
  others := .refl _ _
  shape := patchable.attributes

theorem Patched.append {patches : List Fields} {next : Fields} (patched : Patched name item patches result)
    (texts : ∀ patch ∈ patches, TextList (Entries.get? "profiles" patch)) (patchable : Patchable result)
    (formed : Formed patch) (ran : applyTo name patch result = .ok next) :
    Patched name item (patches ++ [patch]) next := by
  have applied := applied_applyTo formed patchable ran
  constructor
  · intro field
    obtain ⟨owner, owned, _, told⟩ := attributes_applyTo patchable.unshared formed.unshared ran
    cases formed.at_extension.symm.trans owned
    rw [told field, givenTo_append]
    cases value : Entries.get? field (Entries.attributes patch) with
    | none =>
        rw [Option.map_none, Option.toList_none, List.append_nil]
        exact patched.attributes field
    | some value' =>
        exact (patched.attributes field).append (fun old found => patchable.unshared.plain.of_get? found)
          (formed.unshared.plain.of_get? value) (formed.distinct _ (Entries.mem_of_get? value))
  · rw [applied.profiles, joined, List.any_append, List.flatMap_append, List.any_cons, List.any_nil, Bool.or_false,
      List.flatMap_singleton]
    cases given : Value.given (Entries.get? "profiles" patch) with
    | false =>
        rw [if_neg Bool.false_ne_true, textsOf_of_not_given formed.profiles given, List.append_nil, Bool.or_false]
        exact patched.profiles
    | true =>
        rw [if_pos rfl, Entries.get?_put_self, Bool.or_true, if_pos rfl, patched.profiles, ← List.append_assoc]
        split
        · rw [textsOf_array, eraseDups_append_eraseDups]
        · rename_i missing
          have none : (patches.flatMap fun patch => textsOf (Entries.get? "profiles" patch)) = [] := by
            refine List.flatMap_eq_nil_iff.mpr fun patch member => textsOf_of_not_given (texts patch member) ?_
            exact Bool.eq_false_iff.mpr fun given => missing (List.any_eq_true.mpr ⟨patch, member, given⟩)
          rw [none, List.append_nil]
  · intro key member
    rw [applied.replaced key member, patched.replaced key member, getLast?_filterMap_append, Option.or_assoc]
  · rw [applied.constraints, patched.constraints, getLast?_filterMap_append, constrained_constrained]
  · obtain ⟨sorted, perm, _, listed⟩ := patched.patchers
    have before : (textsOf (Entries.get? "_patched_by" result)).Perm (patches.map extensionOf) := by
      rw [listed]
      cases patches with
      | nil => rfl
      | cons head rest =>
          rw [List.isEmpty_cons, if_neg Bool.false_ne_true, textsOf_array]
          exact perm
    refine ⟨_, ?_, Text.pairwise_sort (textsOf (Entries.get? "_patched_by" result) ++ [extensionOf patch]), ?_⟩
    · rw [List.map_append]
      exact (Text.perm_sort _).trans (before.append_right _)
    · rw [applied.patchers, if_neg (by simp)]
  · exact patched.others.trans (sameBeside_applyTo ran)
  · exact applied.attributes

private theorem exists_applyEach (name : Text) {patches : List Fields} (formed : ∀ patch ∈ patches, Formed patch)
    (patchable : Patchable item) (unpatched : Entries.get? "_patched_by" item = none) :
    ∃ result, patches.foldlM (fun item patch => applyTo name patch item) item = .ok result ∧ Patchable result ∧
      Patched name item patches result := by
  induction patches using List.reverseRecOn with
  | nil => exact ⟨item, rfl, patchable, .nil name patchable unpatched⟩
  | append_singleton before last ih =>
      have formedBefore patch member := formed patch (List.mem_append_left [last] member)
      have formedLast := formed last (List.mem_append_right before (List.mem_singleton_self last))
      obtain ⟨result, ran, ready, patched⟩ := ih formedBefore
      obtain ⟨_, _, step⟩ := applyTo_eq name formedLast ready
      refine ⟨_, ?_, ready.applyTo formedLast step,
        patched.append (fun patch member => (formedBefore patch member).profiles) ready formedLast step⟩
      rw [List.foldlM_append, ran, ok_bind, List.foldlM_cons, step]
      rfl

/-! ### All items -/

def context (kind : ItemKind) (name : Text) (patch : Fields) : Text :=
  "extension " ++ (Value.text (extensionOf patch)).enclosed ++ " " ++ kind.name ++ " patch " ++ name.enclosed

/-- The patches one by one, each with the name of its item, in the order in which they are applied. -/
def steps (patches : Patches) : List (Text × Fields) :=
  patches.flatMap fun entry => entry.2.map fun patch => (entry.1, patch)

/-- The problems that are counted for patches: those whose item is nowhere are passed over. -/
def misses (kind : ItemKind) (items : Entries Fields) (steps : List (Text × Fields)) : Diagnostics where
  errors := steps.countP fun step => !Entries.has step.1 items
  unresolved := (steps.filter fun step => !Entries.has step.1 items).map fun step =>
    .nothingToPatch (context kind step.1 step.2) kind step.1

def Owned (items : Entries Fields) (name : Text) : Prop :=
  ∃ item, Entries.get? name items = some item ∧ Entries.has "extension" item = true

variable {kind : ItemKind} {items : Entries Fields}

private theorem applyAll_eq (kind : ItemKind) (items : Entries Fields) (patches : Patches) :
    applyAll kind items patches = (steps patches).foldlM (fun items step => apply kind items step.1 step.2) items := by
  unfold applyAll steps
  induction patches generalizing items with
  | nil => rfl
  | cons entry rest ih =>
      rw [List.foldlM_cons, List.flatMap_cons, List.foldlM_append, List.foldlM_map]
      congr 1
      funext after
      exact ih after

/-- A patch is passed over, stops the pass, or is applied. -/
theorem outcome_apply (kind : ItemKind) (formed : Formed patch)
    (patchable : ∀ name item, Entries.get? name items = some item → Patchable item) (name : Text) (run : Run) :
    (Entries.get? name items = none ∧ ∃ after, (apply kind items name patch).outcome run = (.ok items, after) ∧
        after.diagnostics = run.diagnostics.add
          { errors := 1, unresolved := [.nothingToPatch (context kind name patch) kind name] }) ∨
      (∃ item owner, Entries.get? name items = some item ∧ Entries.get? "extension" item = some owner ∧
        (apply kind items name patch).outcome run =
          (.error (.definition (.patchAcrossExtensions (context kind name patch) name owner)), run)) ∨
      ∃ item result after, Entries.get? name items = some item ∧ Entries.has "extension" item = false ∧
        applyTo name patch item = .ok result ∧
        (apply kind items name patch).outcome run = (.ok (Entries.put name result items), after) ∧
        after.diagnostics = run.diagnostics := by
  unfold apply
  rw [formed.at_extension, Act.outcome_bind, Act.outcome_lift]
  dsimp only
  cases found : Entries.get? name items with
  | none => exact .inl ⟨rfl, _, rfl, rfl⟩
  | some item =>
      refine .inr ?_
      dsimp only
      cases owned : Entries.get? "extension" item with
      | some owner => exact .inl ⟨item, owner, rfl, owned, rfl⟩
      | none =>
          obtain ⟨attributes, _, ran⟩ := applyTo_eq name formed (patchable name item found)
          refine .inr ⟨item, _, { run with notices := run.notices ++ [.patching (context kind name patch) name] }, rfl,
            by rw [Entries.has, owned]; rfl, ran, ?_, rfl⟩
          rw [ran]
          rfl

private theorem misses_cons (kind : ItemKind) (items : Entries Fields) (step : Text × Fields)
    (rest : List (Text × Fields)) :
    misses kind items (step :: rest) =
      (if Entries.has step.1 items then {}
        else { errors := 1, unresolved := [.nothingToPatch (context kind step.1 step.2) kind step.1] } :
          Diagnostics).add
        (misses kind items rest) := by
  unfold misses
  rw [List.countP_cons, List.filter_cons]
  cases Entries.has step.1 items with
  | true => exact (Diagnostics.none_add _).symm
  | false =>
      rw [Nat.add_comm]
      rfl

private theorem misses_congr {after : Entries Fields} (same : Entries.keys after = Entries.keys items) (kind : ItemKind)
    (steps : List (Text × Fields)) : misses kind after steps = misses kind items steps := by
  unfold misses
  simp only [Entries.has_congr same]

/-- The pass over patches ends, unless it comes to one of an item that belongs to an extension. -/
theorem outcome_steps (kind : ItemKind) {steps : List (Text × Fields)} (formed : ∀ step ∈ steps, Formed step.2)
    (patchable : ∀ name item, Entries.get? name items = some item → Patchable item) (run : Run) :
    (∃ patched after, (steps.foldlM (fun items step => apply kind items step.1 step.2) items).outcome run =
        (.ok patched, after) ∧ (∀ step ∈ steps, ¬Owned items step.1) ∧
        after.diagnostics = run.diagnostics.add (misses kind items steps)) ∨
      ∃ step ∈ steps, ∃ item owner after, Entries.get? step.1 items = some item ∧
        Entries.get? "extension" item = some owner ∧
        (steps.foldlM (fun items step => apply kind items step.1 step.2) items).outcome run =
          (.error (.definition (.patchAcrossExtensions (context kind step.1 step.2) step.1 owner)), after) := by
  induction steps generalizing items run with
  | nil => exact .inl ⟨items, run, rfl, List.forall_mem_nil _, (Diagnostics.add_none _).symm⟩
  | cons step rest ih =>
      obtain ⟨formedHere, formedLater⟩ := List.forall_mem_cons.mp formed
      rw [List.foldlM_cons, Act.outcome_bind, misses_cons]
      rcases outcome_apply kind formedHere patchable step.1 run with ⟨absent, between, ran, counted⟩ |
        ⟨item, owner, found, owned, ran⟩ | ⟨item, result, between, found, unowned, applied, ran, counted⟩
      · rw [ran, Entries.has, absent]
        rcases ih formedLater patchable between with ⟨patched, after, ended, free, told⟩ |
          ⟨step', member, item, owner, after, found, owned, ended⟩
        · refine .inl ⟨patched, after, ended, List.forall_mem_cons.mpr ⟨?_, free⟩, ?_⟩
          · rintro ⟨item, found, _⟩
            cases absent.symm.trans found
          · rw [told, counted, Diagnostics.add_assoc]
            rfl
        · exact .inr ⟨step', List.mem_cons_of_mem _ member, item, owner, after, found, owned, ended⟩
      · rw [ran]
        exact .inr ⟨step, List.mem_cons_self .., item, owner, run, found, owned, rfl⟩
      · have related :
            Entries.Related (fun _ => Entries.SameBeside writtenKeys) items (Entries.put step.1 result items) :=
          Entries.related_put (fun _ _ => .refl _ _) found (sameBeside_applyTo applied)
        have ready (name : Text) (item' : Fields)
            (held : Entries.get? name (Entries.put step.1 result items) = some item') :
            Patchable item' := by
          rw [Entries.get?_put] at held
          split at held
          · cases held
            exact (patchable _ _ found).applyTo formedHere applied
          · exact patchable _ _ held
        rw [ran, Entries.has, found]
        rcases ih formedLater ready between with ⟨patched, after, ended, free, told⟩ |
          ⟨step', member, item', owner, after, found', owned, ended⟩
        · refine .inl ⟨patched, after, ended, List.forall_mem_cons.mpr ⟨?_, fun other member => ?_⟩, ?_⟩
          · rintro ⟨item', found', owned⟩
            cases found.symm.trans found'
            cases unowned.symm.trans owned
          · rintro ⟨before, found', owned⟩
            obtain ⟨later, held, same⟩ := related.get?_left found'
            refine free other member ⟨later, held, ?_⟩
            rw [Entries.has, same "extension" (by decide)]
            exact owned
          · rw [told, counted, misses_congr related.keys_eq]
            exact congrArg _ (Diagnostics.none_add _).symm
        · obtain ⟨before, held, same⟩ := related.get?_right found'
          exact .inr ⟨step', List.mem_cons_of_mem _ member, before, owner, after, held,
            (same "extension" (by decide)).symm.trans owned, ended⟩

def patchesOf (name : Text) (patches : Patches) : List Fields := (Entries.get? name patches).getD []

/-- Patches stop if and only if one of them is of an item that belongs to an extension, and the fault tells of
such a one. Otherwise every item comes to what its own patches make of it, one without patches stays as it is,
and each patch of an item that is nowhere is told of. -/
theorem applyAll_patched (kind : ItemKind) {patches : Patches} (once : Entries.Distinct patches)
    (formed : ∀ entry ∈ patches, ∀ patch ∈ entry.2, Formed patch)
    (patchable : ∀ name item, Entries.get? name items = some item →
      Patchable item ∧ Entries.get? "_patched_by" item = none) (run : Run) :
    ((∃ fault after, (applyAll kind items patches).outcome run = (.error fault, after)) ↔
      ∃ step ∈ steps patches, Owned items step.1) ∧
    (∀ fault after, (applyAll kind items patches).outcome run = (.error fault, after) →
      ∃ step ∈ steps patches, ∃ item owner, Entries.get? step.1 items = some item ∧
        Entries.get? "extension" item = some owner ∧
        fault = .definition (.patchAcrossExtensions (context kind step.1 step.2) step.1 owner)) ∧
    ∀ patched after, (applyAll kind items patches).outcome run = (.ok patched, after) →
      Entries.keys patched = Entries.keys items ∧
      after.diagnostics = run.diagnostics.add (misses kind items (steps patches)) ∧
      ∀ name item, Entries.get? name items = some item → ∃ result, Entries.get? name patched = some result ∧
        (patchesOf name patches = [] → result = item) ∧ Patched name item (patchesOf name patches) result := by
  have formedEach : ∀ step ∈ steps patches, Formed step.2 := by
    intro step member
    obtain ⟨entry, known, member⟩ := List.mem_flatMap.mp member
    obtain ⟨patch, given, rfl⟩ := List.mem_map.mp member
    exact formed entry known patch given
  have ends := outcome_steps kind formedEach (fun name item found => (patchable name item found).1) run
  rw [← applyAll_eq] at ends
  refine ⟨⟨?_, ?_⟩, ?_, ?_⟩
  · rintro ⟨fault, after, ran⟩
    rcases ends with ⟨_, _, ended, _⟩ | ⟨step, member, item, owner, _, found, owned, _⟩
    · cases ran.symm.trans ended
    · exact ⟨step, member, item, found, by rw [Entries.has, owned]; rfl⟩
  · rintro ⟨step, member, owned⟩
    rcases ends with ⟨_, _, _, free, _⟩ | ⟨_, _, _, _, after, _, _, ended⟩
    · exact absurd owned (free step member)
    · exact ⟨_, after, ended⟩
  · intro fault after ran
    rcases ends with ⟨_, _, ended, _⟩ | ⟨step, member, item, owner, _, found, owned, ended⟩
    · cases ran.symm.trans ended
    · cases ran.symm.trans ended
      exact ⟨step, member, item, owner, found, owned, rfl⟩
  · intro patched after ran
    have counted : after.diagnostics = run.diagnostics.add (misses kind items (steps patches)) := by
      rcases ends with ⟨_, _, ended, _, told⟩ | ⟨_, _, _, _, _, _, _, ended⟩
      · cases ran.symm.trans ended
        exact told
      · cases ran.symm.trans ended
    refine ⟨(related_applyAll (.of_outcome ran)).keys_eq, counted, fun name item found => ?_⟩
    obtain ⟨ready, unpatched⟩ := patchable name item found
    obtain ⟨result, applied, held⟩ := get?_applyAll once found (.of_outcome ran)
    have own : ∀ patch ∈ patchesOf name patches, Formed patch := by
      intro patch member
      unfold patchesOf at member
      cases listed : Entries.get? name patches with
      | none =>
          rw [listed] at member
          cases member
      | some given =>
          rw [listed] at member
          exact formed _ (Entries.mem_of_get? listed) patch member
    obtain ⟨_, again, _, came⟩ := exists_applyEach name own ready unpatched
    cases applied.symm.trans again
    refine ⟨result, held, fun none => ?_, came⟩
    change (patchesOf name patches).foldlM _ item = _ at applied
    rw [none] at applied
    exact (pure_eq_ok.mp applied).symm

def patchedTwice : Entries Fields := [("user", [
  ("attributes", .record [
    ("name", .record [("caption", .text "Name")]),
    ("size", .record [("caption", .text "Size")])]),
  ("profiles", .array [.text "host"]),
  ("constraints", .record [("just_one", .array [.text "name"])])])]

def patchesOfTwo : Patches := [
  ("user", [
    [("extension", .text "win"), ("attributes", .record [
        ("name", .record [("requirement", .text "required")]),
        ("size", .null)]),
      ("profiles", .array [.text "cloud", .text "host"])],
    [("extension", .text "linux"), ("attributes", .record [("name", .record [("caption", .text "User Name")])]),
      ("constraints", .record [])]]),
  ("ghost", [[("extension", .text "win")]])]

private theorem formed_patchesOfTwo : ∀ entry ∈ patchesOfTwo, ∀ patch ∈ entry.2, Formed patch := by
  have profiles (names : List Text) : TextList (some (.array (names.map .text))) := textList_texts names
  simp only [patchesOfTwo, List.forall_mem_cons]
  refine ⟨⟨?_, ?_, List.forall_mem_nil _⟩, ⟨?_, List.forall_mem_nil _⟩, List.forall_mem_nil _⟩
  · exact ⟨⟨_, rfl⟩, fun _ found => (by cases found; rfl), ⟨rfl, by decide⟩, by decide, profiles ["cloud", "host"]⟩
  · exact ⟨⟨_, rfl⟩, fun _ found => (by cases found; rfl), ⟨rfl, by decide⟩, by decide, TextList.none⟩
  · exact ⟨⟨_, rfl⟩, fun _ found => (by cases found), ⟨rfl, by decide⟩, by decide, TextList.none⟩

private theorem patchable_patchedTwice (name : Text) (item : Fields)
    (found : Entries.get? name patchedTwice = some item) :
    Patchable item ∧ Entries.get? "_patched_by" item = none := by
  cases List.mem_singleton.mp (Entries.mem_of_get? found)
  exact ⟨⟨fun _ found => (by cases found; rfl), ⟨rfl, by decide⟩, textList_texts ["host"], TextList.none⟩, rfl⟩

/-- The attribute that both patches name is signed by the later one, and the patch of no item is counted. -/
theorem applyAll_patched_twice :
    Entries.Distinct patchesOfTwo ∧ (∀ entry ∈ patchesOfTwo, ∀ patch ∈ entry.2, Formed patch) ∧
    (∀ name item, Entries.get? name patchedTwice = some item →
      Patchable item ∧ Entries.get? "_patched_by" item = none) ∧
    ∃ patched after result fields, (applyAll .object patchedTwice patchesOfTwo).outcome {} = (.ok patched, after) ∧
      after.diagnostics.errors = 1 ∧
      Entries.get? "user" patched = some result ∧
      Entries.get? "name" (Entries.attributes result) = some (.record fields) ∧
      Entries.get? "_source_patched" fields = some (.text "linux/user") ∧
      Entries.get? "size" (Entries.attributes result) = some .null ∧
      Entries.get? "profiles" result = some (.array [.text "host", .text "cloud"]) ∧
      Entries.get? "constraints" result = none := by
  obtain ⟨stops, _, ends⟩ := applyAll_patched .object (by decide) formed_patchesOfTwo
    patchable_patchedTwice {}
  have free : ¬∃ step ∈ steps patchesOfTwo, Owned patchedTwice step.1 := by
    rintro ⟨⟨name, patch⟩, _, item, found, owned⟩
    cases List.mem_singleton.mp (Entries.mem_of_get? found)
    cases owned
  refine ⟨by decide, formed_patchesOfTwo, patchable_patchedTwice, ?_⟩
  rcases ran : (applyAll .object patchedTwice patchesOfTwo).outcome {} with ⟨fault | patched, after⟩
  · exact absurd (stops.mp ⟨fault, after, ran⟩) free
  · obtain ⟨_, counted, each⟩ := ends patched after ran
    obtain ⟨result, held, _, came⟩ := each "user" _ rfl
    obtain ⟨final, raw, signed, _, fields, inside, rfl, _, source, _⟩ := came.attributes "name"
    obtain ⟨size, _, written, _, rfl, _⟩ := came.attributes "size"
    exact ⟨patched, after, result, fields, rfl, by rw [counted]; rfl, held, signed, source, written,
      came.profiles.trans (by decide), came.constraints⟩

end Patch

end EventSchema
