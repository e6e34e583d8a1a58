import Mathlib.Data.List.TakeWhile
import EventSchema.Proofs.Lineage.Descend
import EventSchema.Proofs.Lineage.Walk

/-!
What an item inherits from a whole line.

The attributes and fields of a flattened item are told from what the items of its line state, without
going through the items in between. An attribute is what its last declarations come to: those after
the last time it was set to something other than an object, merged in the order of the line. Profiles
and observables are collected along the line, a few fields are the item's own, and every other field
is that of the nearest item that has it.
-/

set_option autoImplicit false

namespace EventSchema.Lineage

def stated (field : Text) (line : List (Text × Fields)) : List Value :=
  line.filterMap fun entry => Entries.get? field entry.2

/-- What the items of a line state about an attribute, each with its key, the youngest first. -/
def mentions (name : Text) (line : List (Text × Fields)) : List (Text × Value) :=
  line.filterMap fun entry => (Entries.get? name (Entries.attributes entry.2)).map fun value =>
    (entry.1, value)

/-- The mentions of an attribute that declare it, the oldest first: those after the last one that
set it to something other than an object. -/
def declarations (mentions : List (Text × Value)) : List (Text × Value) :=
  (mentions.takeWhile fun mention => mention.2.isObject).reverse

def attributeAlong (mentions : List (Text × Value)) : Option Value :=
  match mentions with
  | [] => none
  | (_, last) :: _ =>
    if last.isNull then none
    else match declarations mentions with
      | [] => some last
      | (source, first) :: later =>
        some ((later.map Prod.snd).foldl Value.merge (sourced source first))

/-- Profiles along a line: those of all items, the oldest first and repeats dropped, unless only the
oldest item has any. -/
def profilesAlong (line : List (Text × Fields)) : Option Value :=
  match stated "profiles" line.dropLast with
  | [] => (stated "profiles" line).head?
  | _ :: _ => some (.array
      (Value.addNew [] ((stated "profiles" line).reverse.flatMap fun list => listed (some list))))

/-- Observables along a line, the oldest first: objects are merged over the first one, and anything
else counts only before that. -/
def observablesAlong (observables : List Value) : Option Value :=
  match observables.dropWhile fun value => !value.isObject with
  | [] => observables.getLast?
  | first :: later => some ((later.filter Value.isObject).foldl Value.merge first)

/-- Whether an object inherits its observable: not if it has one itself, and nothing new is written
where no item of the line has one. -/
def observableFlagAlong : List (Text × Fields) → Option Value
  | [] => none
  | [(_, item)] => Entries.get? "observable_inherited?" item
  | (key, item) :: parent :: above =>
    if Entries.has "observable" item then some (.bool false)
    else if (parent :: above).any fun entry => Entries.has "observable" entry.2 then
      some (.bool true)
    else (stated "observable_inherited?" ((key, item) :: parent :: above)).head?

def fieldAlong (kind : ItemKind) (line : List (Text × Fields)) (field : Text) : Option Value :=
  if field = "profiles" then profilesAlong line
  else if field = "observables" then observablesAlong (stated "observables" line).reverse
  else if field = "_resolved" then
    if (line.head?.any fun entry => Value.given (Entries.get? "extends" entry.2)) then
      some (.bool true)
    else none
  else if field = "observable_inherited?" ∧ kind = .object then observableFlagAlong line
  else if field ∈ ownKeys then line.head?.bind fun entry => Entries.get? field entry.2
  else (stated field line).head?

/-! ### One item more -/

private theorem stated_cons (field key : Text) (item : Fields) (above : List (Text × Fields)) :
    stated field ((key, item) :: above) =
      (Entries.get? field item).toList ++ stated field above := by
  unfold stated
  rw [List.filterMap_cons]
  cases Entries.get? field item <;> rfl

theorem mentions_cons (name key : Text) (item : Fields) (above : List (Text × Fields)) :
    mentions name ((key, item) :: above) =
      ((Entries.get? name (Entries.attributes item)).map fun value => (key, value)).toList ++
        mentions name above := by
  unfold mentions
  rw [List.filterMap_cons]
  cases Entries.get? name (Entries.attributes item) <;> rfl

private theorem isObject_foldl_merge {first : Value} {later : List Value} (object : first.isObject = true)
    (objects : ∀ value ∈ later, value.isObject = true) :
    (later.foldl Value.merge first).isObject = true := by
  induction later generalizing first with
  | nil => exact object
  | cons head rest ih =>
      exact ih (Value.isObject_merge first (objects head (List.mem_cons_self ..)))
        fun value member => objects value (List.mem_cons_of_mem _ member)

private theorem isObject_sourced (key : Text) (value : Value) :
    (sourced key value).isObject = value.isObject := by
  cases value <;> rfl

private theorem isObject_of_mem_declarations {mentions : List (Text × Value)} {mention : Text × Value}
    (member : mention ∈ declarations mentions) : mention.2.isObject = true := by
  have counted : mention ∈ mentions.takeWhile fun mention => mention.2.isObject :=
    List.mem_reverse.mp member
  exact List.mem_takeWhile_imp (p := fun mention : Text × Value => mention.2.isObject) counted

/-- One more mention of an attribute goes over what it came to before. -/
theorem attributeAlong_cons (key : Text) (value : Value) (older : List (Text × Value)) :
    attributeAlong ((key, value) :: older) =
      (some (attributeOver key (attributeAlong older) value)).filter fun value => !value.isNull := by
  cases value with
  | object own fields =>
      have grown : declarations ((key, .object own fields) :: older) =
          declarations older ++ [(key, .object own fields)] := by
        unfold declarations
        rw [List.takeWhile_cons_of_pos rfl, List.reverse_cons]
      rw [attributeAlong, grown]
      cases before : declarations older with
      | nil =>
          have onto : attributeOver key (attributeAlong older) (.object own fields) =
              sourced key (.object own fields) := by
            unfold attributeAlong
            rw [before]
            cases older with
            | nil => rfl
            | cons last rest =>
                have scalar : last.2.isObject = false := by
                  cases shape : last.2.isObject with
                  | false => rfl
                  | true =>
                      have counted : (last :: rest).takeWhile
                          (fun mention => mention.2.isObject) = [] :=
                        List.reverse_eq_nil_iff.mp before
                      rw [List.takeWhile_cons, if_pos shape] at counted
                      cases counted
                obtain ⟨other, last⟩ := last
                cases last with
                | object mark fields => cases scalar
                | null | bool _ | int _ | float _ | text _ | array _ => rfl
          rw [onto]
          rfl
      | cons first later =>
          obtain ⟨source, first⟩ := first
          have objects : ∀ mention ∈ (source, first) :: later, mention.2.isObject = true :=
            fun mention member => isObject_of_mem_declarations (before ▸ member)
          have merged : ((later.map Prod.snd).foldl Value.merge (sourced source first)).isObject =
              true := by
            apply isObject_foldl_merge
            · rw [isObject_sourced]
              exact objects _ (List.mem_cons_self ..)
            · intro value member
              obtain ⟨mention, present, same⟩ := List.mem_map.mp member
              exact same ▸ objects mention (List.mem_cons_of_mem _ present)
          have inherited : attributeAlong older = some
              ((later.map Prod.snd).foldl Value.merge (sourced source first)) := by
            unfold attributeAlong
            rw [before]
            cases older with
            | nil => cases before
            | cons last rest =>
                obtain ⟨other, last⟩ := last
                cases last with
                | object mark fields => rfl
                | null | bool _ | int _ | float _ | text _ | array _ => cases before
          rw [inherited, List.cons_append]
          simp only [Value.isNull, Bool.false_eq_true, if_false, List.map_append,
            List.foldl_append, List.map_cons, List.map_nil, List.foldl_cons, List.foldl_nil]
          generalize (later.map Prod.snd).foldl Value.merge (sourced source first) = before
            at merged
          cases before with
          | object mark base =>
              change some (Value.merge _ _) = Option.filter _ (some (Value.merge _ _))
              rw [Value.merge_object]
              rfl
          | null | bool _ | int _ | float _ | text _ | array _ => cases merged
  | null | bool _ | int _ | float _ | text _ | array _ =>
      cases attributeAlong older with
      | none => rfl
      | some before => cases before <;> rfl

private theorem profilesAlong_cons (key : Text) (item : Fields) (parent : Text × Fields)
    (above : List (Text × Fields)) :
    profilesAlong ((key, item) :: parent :: above) =
      match Entries.get? "profiles" item with
      | none => profilesAlong (parent :: above)
      | some own => some (.array (Value.addNew []
          (listed (profilesAlong (parent :: above)) ++ listed (some own)))) := by
  have shorter : ((key, item) :: parent :: above).dropLast =
      (key, item) :: (parent :: above).dropLast := rfl
  unfold profilesAlong
  rw [shorter, stated_cons, stated_cons]
  cases Entries.get? "profiles" item with
  | none => rfl
  | some own =>
      simp only [Option.toList_some, List.singleton_append, List.reverse_cons,
        List.flatMap_append, List.flatMap_singleton]
      congr 2
      cases younger : stated "profiles" (parent :: above).dropLast with
      | cons first rest =>
          change _ = Value.addNew [] (Value.addNew [] _ ++ _)
          rw [Value.addNew_addNew]
      | nil =>
          -- above the parent only the oldest item can have profiles
          have split : (parent :: above) = (parent :: above).dropLast ++
              [(parent :: above).getLast (List.cons_ne_nil _ _)] :=
            (List.dropLast_append_getLast _).symm
          have only : stated "profiles" (parent :: above) =
              stated "profiles" [(parent :: above).getLast (List.cons_ne_nil _ _)] := by
            conv_lhs => rw [split]
            unfold stated at younger ⊢
            rw [List.filterMap_append, younger, List.nil_append]
          rw [only]
          obtain ⟨oldest, root⟩ := (parent :: above).getLast (List.cons_ne_nil _ _)
          rw [stated_cons]
          cases Entries.get? "profiles" root with
          | none => rfl
          | some list => simp [stated]

private theorem observablesOver_of_scalar {before : Option Value}
    (scalar : ∀ value, before = some value → value.isObject = false) (value : Value) :
    observablesOver before value = value := by
  cases before with
  | none => rfl
  | some old =>
      have notObject := scalar old rfl
      cases old with
      | object mark fields => cases notObject
      | null | bool _ | int _ | float _ | text _ | array _ => rfl

private theorem observablesOver_of_object {old : Value} (object : old.isObject = true) (value : Value) :
    observablesOver (some old) value = if value.isObject then old.merge value else old := by
  cases old with
  | object mark fields => rfl
  | null | bool _ | int _ | float _ | text _ | array _ => cases object

private theorem observablesAlong_append (older : List Value) (value : Value) :
    observablesAlong (older ++ [value]) =
      some (observablesOver (observablesAlong older) value) := by
  unfold observablesAlong
  rw [List.dropWhile_append]
  cases before : older.dropWhile fun value => !value.isObject with
  | nil =>
      -- no object so far, so the last value counts
      have scalar : ∀ last, older.getLast? = some last → last.isObject = false := by
        intro last found
        have all := List.dropWhile_eq_nil_iff.mp before last (List.mem_of_getLast? found)
        simpa using all
      simp only [observablesOver_of_scalar scalar]
      by_cases added : value.isObject = true
      · simp [added]
      · simp [added]
  | cons first later =>
      have object : first.isObject = true := by
        have stops := List.head?_dropWhile_not (fun value : Value => !value.isObject) older
        rw [before] at stops
        simpa using stops
      have whole : ((later.filter Value.isObject).foldl Value.merge first).isObject = true :=
        isObject_foldl_merge object fun value member => (List.mem_filter.mp member).2
      simp only [observablesOver_of_object whole]
      by_cases added : value.isObject = true
      · simp [added]
      · simp [added]

private theorem observableFlagAlong_of_none {line : List (Text × Fields)}
    (without : (line.any fun entry => Entries.has "observable" entry.2) = false) :
    observableFlagAlong line = (stated "observable_inherited?" line).head? := by
  cases line with
  | nil => rfl
  | cons entry older =>
      obtain ⟨key, item⟩ := entry
      rw [List.any_cons, Bool.or_eq_false_iff] at without
      cases older with
      | nil =>
          rw [observableFlagAlong, stated_cons]
          cases Entries.get? "observable_inherited?" item <;> rfl
      | cons parent above =>
          rw [observableFlagAlong, without.1, without.2]
          rfl

private theorem head?_stated_isSome (field : Text) (line : List (Text × Fields)) :
    (stated field line).head?.isSome = line.any fun entry => Entries.has field entry.2 := by
  induction line with
  | nil => rfl
  | cons entry older ih =>
      obtain ⟨key, item⟩ := entry
      rw [stated_cons, List.any_cons, Entries.has]
      cases Entries.get? field item with
      | none => exact ih
      | some value => rfl

section OneStep

variable {kind : ItemKind} {key : Text} {item flatParent : Fields} {parent : Text × Fields}
  {above : List (Text × Fields)}

private theorem takenBelow_eq_nearest {field : Text}
    (special : field ∉ (["attributes", "profiles", "observables"] : List Text))
    (shared : field ∉ ownKeys)
    (nearest : Entries.get? field flatParent = (stated field (parent :: above)).head?) :
    takenBelow flatParent item field = (stated field ((key, item) :: parent :: above)).head? := by
  simp only [List.mem_cons, List.not_mem_nil, or_false, not_or] at special
  rw [stated_cons, takenBelow, if_neg shared]
  cases Entries.get? field item with
  | none => exact nearest
  | some value =>
      simp only [fieldOver, special, if_false]
      rfl

/-- A field of an item over its parent is what the field comes to along the line with the item in
front, if the fields of the parent are what they come to along its own. -/
theorem fieldBelow_eq_fieldAlong
    (told : ∀ field : Text, field ≠ "attributes" →
      Entries.get? field flatParent = fieldAlong kind (parent :: above) field)
    {field : Text} (other : field ≠ "attributes") (unmarked : field ≠ "_resolved") :
    fieldBelow kind flatParent item field =
      fieldAlong kind ((key, item) :: parent :: above) field := by
  by_cases profiles : field = "profiles"
  · subst profiles
    have inherited := told "profiles" (by decide)
    rw [fieldAlong, if_pos rfl] at inherited ⊢
    rw [fieldBelow, if_neg (by decide), takenBelow, if_neg (by decide), profilesAlong_cons,
      ← inherited]
    cases Entries.get? "profiles" item <;> rfl
  by_cases observables : field = "observables"
  · subst observables
    have inherited := told "observables" (by decide)
    rw [fieldAlong, if_neg (by decide), if_pos rfl] at inherited ⊢
    rw [fieldBelow, if_neg (by decide), takenBelow, if_neg (by decide), stated_cons,
      List.reverse_append, inherited]
    cases Entries.get? "observables" item with
    | none =>
        rw [Option.toList_none, List.reverse_nil, List.append_nil]
    | some value =>
        rw [Option.toList_some, List.reverse_singleton, observablesAlong_append]
        rfl
  by_cases flag : field = "observable_inherited?" ∧ kind = .object
  · obtain ⟨rfl, rfl⟩ := flag
    have inherited := told "observable_inherited?" (by decide)
    have observable := told "observable" (by decide)
    rw [fieldAlong, if_neg (by decide), if_neg (by decide), if_neg (by decide),
      if_pos ⟨rfl, rfl⟩] at inherited ⊢
    rw [fieldAlong, if_neg (by decide), if_neg (by decide), if_neg (by decide),
      if_neg (by decide), if_neg (by decide)] at observable
    have anyAbove : Entries.has "observable" flatParent =
        (parent :: above).any fun entry => Entries.has "observable" entry.2 := by
      rw [Entries.has, observable, head?_stated_isSome]
    rw [fieldBelow, if_pos rfl, observableFlag, if_pos rfl, observableFlagAlong, anyAbove]
    by_cases own : Entries.has "observable" item = true
    · rw [if_pos own, if_pos own]
      rfl
    · rw [if_neg own, if_neg own]
      by_cases among : ((parent :: above).any fun entry => Entries.has "observable" entry.2) = true
      · rw [if_pos among, if_pos among]
        rfl
      · rw [if_neg among, if_neg among, Option.map_none, Option.none_or]
        rw [Bool.not_eq_true] at among
        apply takenBelow_eq_nearest (by decide) (by decide)
        rw [inherited, observableFlagAlong_of_none among]
  have below : fieldBelow kind flatParent item field = takenBelow flatParent item field := by
    unfold fieldBelow
    by_cases named : field = "observable_inherited?"
    · have notObject : kind ≠ .object := fun object => flag ⟨named, object⟩
      rw [if_pos named, observableFlag, if_neg notObject, Option.map_none, Option.none_or]
    · rw [if_neg named]
  have special : field ∉ (["attributes", "profiles", "observables"] : List Text) := by
    simp only [List.mem_cons, List.not_mem_nil, or_false, not_or]
    exact ⟨other, profiles, observables⟩
  have inherited := told field other
  rw [fieldAlong, if_neg profiles, if_neg observables, if_neg unmarked, if_neg flag] at inherited ⊢
  rw [below]
  by_cases own : field ∈ ownKeys
  · rw [if_pos own, takenBelow, if_pos own, List.head?_cons, Option.bind_some]
    cases Entries.get? field item with
    | none => rfl
    | some value =>
        simp only [fieldOver, if_neg other, if_neg profiles, if_neg observables]
  · rw [if_neg own] at inherited ⊢
    exact takenBelow_eq_nearest special own inherited

end OneStep

/-! ### The whole line -/

private theorem attributeAlong_given (mentions : List (Text × Value)) :
    (attributeAlong mentions).filter (fun value => !value.isNull) = attributeAlong mentions := by
  cases mentions with
  | nil => rfl
  | cons mention older =>
      obtain ⟨key, value⟩ := mention
      rw [attributeAlong_cons, Option.filter_filter]
      simp only [Bool.and_self]

private theorem fieldAlong_resolved (kind : ItemKind) (key : Text) (item : Fields)
    (above : List (Text × Fields)) :
    fieldAlong kind ((key, item) :: above) "_resolved" =
      if Value.given (Entries.get? "extends" item) then some (.bool true) else none := by
  rw [fieldAlong, if_neg (by decide), if_neg (by decide), if_pos rfl]
  rfl

private theorem fieldAlong_alone (kind : ItemKind) (key : Text) (item : Fields) {field : Text}
    (unmarked : field ≠ "_resolved") :
    fieldAlong kind [(key, item)] field = Entries.get? field item := by
  have only (field : Text) : stated field [(key, item)] = (Entries.get? field item).toList := by
    rw [stated_cons]
    exact List.append_nil _
  unfold fieldAlong
  by_cases profiles : field = "profiles"
  · rw [if_pos profiles, profilesAlong, only, profiles]
    cases Entries.get? "profiles" item <;> rfl
  rw [if_neg profiles]
  by_cases observables : field = "observables"
  · rw [if_pos observables, only, observables]
    cases Entries.get? "observables" item with
    | none => rfl
    | some value =>
        change observablesAlong ([] ++ [value]) = _
        rw [observablesAlong_append]
        rfl
  rw [if_neg observables, if_neg unmarked]
  by_cases flag : field = "observable_inherited?" ∧ kind = .object
  · rw [if_pos flag, flag.1]
    rfl
  rw [if_neg flag, only]
  by_cases own : field ∈ ownKeys
  · rw [if_pos own]
    rfl
  · rw [if_neg own]
    cases Entries.get? field item <;> rfl

theorem textList_profilesAlong {line : List (Text × Fields)}
    (documents : ∀ entry ∈ line, Stated entry.2) : TextList (profilesAlong line) := by
  have texts : ∀ list ∈ stated "profiles" line, TextList (some list) := by
    intro list member
    obtain ⟨entry, present, found⟩ := List.mem_filterMap.mp member
    exact found ▸ (documents entry present).profiles
  unfold profilesAlong
  cases stated "profiles" line.dropLast with
  | nil =>
      cases first : (stated "profiles" line).head? with
      | none => exact TextList.none
      | some list => exact texts list (List.mem_of_head? first)
  | cons younger rest =>
      apply textList_array
      intro value member
      rcases Value.mem_of_mem_addNew member with impossible | collected
      · cases impossible
      · obtain ⟨list, present, inList⟩ := List.mem_flatMap.mp collected
        exact (texts list (List.mem_reverse.mp present)).text_of_mem inList

/-- A line of items as documents state them is flattened without a fault, and the result is what each
attribute and each field comes to along the line. -/
theorem inherit_ok (kind : ItemKind) {items : Fields} {line : List (Text × Fields)}
    (ancestry : Ancestry items line) (documents : ∀ entry ∈ line, Stated entry.2) :
    ∃ flat attributes, inherit kind line = .ok flat ∧
      Entries.get? "attributes" flat = some (.record attributes) ∧ Heritable attributes ∧
      (∀ name, Entries.get? name attributes = attributeAlong (mentions name line)) ∧
      ∀ field : Text, field ≠ "attributes" → Entries.get? field flat = fieldAlong kind line field := by
  induction ancestry with
  | @root key mark item found start =>
      have document := documents _ (List.mem_cons_self ..)
      have unmarked : ¬Value.given (Entries.get? "_resolved" item) = true := by
        rw [document.unresolved]
        exact Bool.false_ne_true
      obtain ⟨flat, attributes, alone, holds, heritable, told, fields⟩ :=
        standalone_ok key document
      have attributeTold (name : Text) :
          Entries.get? name attributes = attributeAlong (mentions name [(key, item)]) := by
        rw [told, mentions_cons]
        cases Entries.get? name (Entries.attributes item) with
        | none => rfl
        | some value =>
            change _ = attributeAlong ((key, value) :: [])
            rw [attributeAlong_cons]
            cases value <;> rfl
      cases named : Value.given (Entries.get? "extends" item) with
      | false =>
          refine ⟨flat, attributes, ?_, holds, heritable, attributeTold, fun field other => ?_⟩
          · rw [inherit, if_neg unmarked, named, alone]
            rfl
          · by_cases marker : field = "_resolved"
            · rw [fields field other, marker, document.unresolved, fieldAlong_resolved, named]
              rfl
            · rw [fields field other, fieldAlong_alone kind key item marker]
      | true =>
          refine ⟨resolved flat, attributes, ?_, ?_, heritable, attributeTold,
            fun field other => ?_⟩
          · rw [inherit, if_neg unmarked, named, alone]
            rfl
          · rw [resolved, Entries.get?_put_of_ne (by decide), holds]
          · rw [resolved, Entries.get?_put]
            by_cases marker : field = "_resolved"
            · rw [if_pos marker, marker, fieldAlong_resolved, if_pos named]
            · rw [if_neg marker, fields field other, fieldAlong_alone kind key item marker]
  | @child key mark item parent above found fresh next older ih =>
      have document := documents _ (List.mem_cons_self ..)
      obtain ⟨flatParent, inherited, computed, holds, heritable, told, fields⟩ :=
        ih fun entry member => documents entry (List.mem_cons_of_mem _ member)
      have profiles : TextList (Entries.get? "profiles" flatParent) := by
        rw [fields "profiles" (by decide)]
        exact textList_profilesAlong fun entry member =>
          documents entry (List.mem_cons_of_mem _ member)
      obtain ⟨flat, attributes, descended, holdsFlat, heritableFlat, toldFlat, fieldsFlat⟩ :=
        descend_ok kind key document heritable holds profiles
      refine ⟨resolved flat, attributes, ?_, ?_, heritableFlat, fun name => ?_, fun field other => ?_⟩
      · rw [inherit, computed, ok_bind, descended]
        rfl
      · rw [resolved, Entries.get?_put_of_ne (by decide), holdsFlat]
      · rw [toldFlat, told, mentions_cons name key item]
        cases Entries.get? name (Entries.attributes item) with
        | none => exact attributeAlong_given _
        | some value => exact (attributeAlong_cons key value _).symm
      · rw [resolved, Entries.get?_put]
        by_cases marker : field = "_resolved"
        · rw [if_pos marker, marker, fieldAlong_resolved, if_pos (given_of_findParent next)]
        · rw [if_neg marker, fieldsFlat field other, fieldBelow_eq_fieldAlong fields other marker]

/-! ### Attributes told by their declarations -/

/-- How an attribute follows from what the items of a line state about it, the youngest first: it is
there if the last mention is not null, and it is that mention, or, if that is an object, the
declarations merged with the key of the first of them as the source. -/
structure AttributeFrom (mentions : List (Text × Value)) (found : Option Value) : Prop where
  present : found.isSome = true ↔ ∃ last ∈ mentions.head?, last.2.isNull = false
  replaced : ∀ last ∈ mentions.head?, last.2.isObject = false → last.2.isNull = false →
    found = some last.2
  merged : ∀ last ∈ mentions.head?, last.2.isObject = true →
    ∃ source first later fields, declarations mentions = (source, first) :: later ∧
      found = some (.record fields) ∧
      Entries.get? "_source" fields = some (.text source) ∧
      .record (Entries.erase "_source" fields) = (later.map Prod.snd).foldl Value.merge first

/-- Merging declarations that name no source leaves the source of the first one. -/
theorem foldl_merge_sourced (base : Fields) {later : List Value}
    (declared : ∀ value ∈ later, ∃ own fields, value = .object own fields ∧
      Entries.get? "_source" fields = none) :
    ∃ fields, later.foldl Value.merge (.record base) = .record fields ∧
      Entries.get? "_source" fields = Entries.get? "_source" base ∧
      later.foldl Value.merge (.record (Entries.erase "_source" base)) =
        .record (Entries.erase "_source" fields) := by
  induction later generalizing base with
  | nil => exact ⟨base, rfl, rfl, rfl⟩
  | cons value rest ih =>
      obtain ⟨own, source, same, absent⟩ := declared value (List.mem_cons_self ..)
      subst same
      obtain ⟨fields, whole, named, erased⟩ := ih (Value.mergeFields base source)
        fun value member => declared value (List.mem_cons_of_mem _ member)
      rw [Value.get?_mergeFields_of_absent absent] at named
      rw [Value.erase_mergeFields, Entries.erase_of_absent absent] at erased
      refine ⟨fields, ?_, named, ?_⟩
      · rw [List.foldl_cons, Value.record, Value.merge_object]
        exact whole
      · rw [List.foldl_cons, Value.record, Value.merge_object]
        exact erased

theorem isNull_attributeOver (key : Text) (before : Option Value) (value : Value) :
    (attributeOver key before value).isNull = value.isNull := by
  cases value with
  | object own fields =>
      cases before with
      | none => rfl
      | some old =>
          cases old with
          | object mark base =>
              change (Value.merge _ _).isNull = _
              rw [Value.merge_object]
              rfl
          | null | bool _ | int _ | float _ | text _ | array _ => rfl
  | null | bool _ | int _ | float _ | text _ | array _ =>
      cases before with
      | none => rfl
      | some old => cases old <;> rfl

private theorem attributeFrom_attributeAlong {mentions : List (Text × Value)}
    (plain : ∀ mention ∈ mentions, Value.Plain mention.2)
    (unsourced : ∀ mention ∈ mentions, sourceOf mention.2 = none) :
    AttributeFrom mentions (attributeAlong mentions) := by
  have within {mention : Text × Value} (member : mention ∈ declarations mentions) :
      mention ∈ mentions :=
    (List.takeWhile_sublist _).subset (List.mem_reverse.mp member)
  cases mentions with
  | nil => exact ⟨by simp [attributeAlong], by simp, by simp⟩
  | cons last older =>
      obtain ⟨key, value⟩ := last
      refine ⟨?_, ?_, ?_⟩
      · rw [attributeAlong_cons, Option.isSome_filter, Option.any_some, isNull_attributeOver]
        constructor
        · intro given
          exact ⟨(key, value), rfl, by simpa using given⟩
        · rintro ⟨_, ⟨⟩, given⟩
          simpa using given
      · rintro _ ⟨⟩ scalar given
        rw [attributeAlong_cons]
        cases value with
        | object mark fields => cases scalar
        | null => cases given
        | bool _ | int _ | float _ | text _ | array _ =>
            cases attributeAlong older with
            | none => rfl
            | some old => cases old <;> rfl
      · rintro _ ⟨⟩ object
        change value.isObject = true at object
        have notNull : value.isNull = false := by
          cases value with
          | object mark fields => rfl
          | null | bool _ | int _ | float _ | text _ | array _ => cases object
        have counted : declarations ((key, value) :: older) =
            declarations older ++ [(key, value)] := by
          unfold declarations
          rw [List.takeWhile_cons, if_pos object, List.reverse_cons]
        obtain ⟨first, later, split⟩ : ∃ first later,
            declarations ((key, value) :: older) = first :: later := by
          rw [counted]
          cases declarations older with
          | nil => exact ⟨_, _, rfl⟩
          | cons first later => exact ⟨_, _, rfl⟩
        have declared {mention : Text × Value}
            (member : mention ∈ declarations ((key, value) :: older)) :
            ∃ own fields, mention.2 = .object own fields ∧
              Entries.get? "_source" fields = none := by
          have isObject := isObject_of_mem_declarations member
          cases shape : mention.2 with
          | object own fields =>
              have absent := unsourced _ (within member)
              rw [shape] at absent
              exact ⟨own, fields, rfl, absent⟩
          | null | bool _ | int _ | float _ | text _ | array _ =>
              rw [shape] at isObject
              cases isObject
        obtain ⟨source, first⟩ := first
        obtain ⟨mark, base, same, absent⟩ := declared (split ▸ List.mem_cons_self ..)
        change first = .object mark base at same
        subst same
        obtain ⟨unmarked, _⟩ := Value.plain_object.mp
          (plain _ (within (split ▸ List.mem_cons_self ..)))
        subst unmarked
        obtain ⟨fields, whole, named, erased⟩ := foldl_merge_sourced
          (Entries.put "_source" (.text source) base) (show ∀ value ∈ later.map Prod.snd, _ by
            intro value member
            obtain ⟨mention, present, itself⟩ := List.mem_map.mp member
            exact itself ▸ declared (split ▸ List.mem_cons_of_mem _ present))
        have written : sourced source (.object none base) =
            .record (Entries.put "_source" (.text source) base) := by
          have fresh : Entries.has "_source" base = false := by
            rw [Entries.has, absent]
            rfl
          rw [sourced, Entries.putNew, fresh]
          rfl
        refine ⟨source, _, later, fields, split, ?_, ?_, ?_⟩
        · rw [attributeAlong, notNull, split]
          simp only [written, whole]
          rfl
        · rw [named, Entries.get?_put_self]
        · rw [← erased, Entries.erase_put_self, Entries.erase_of_absent absent]
          rfl

private theorem attributeFrom_line {line : List (Text × Fields)}
    (documents : ∀ entry ∈ line, Stated entry.2) (name : Text) :
    AttributeFrom (mentions name line) (attributeAlong (mentions name line)) := by
  have origin {mention : Text × Value} (member : mention ∈ mentions name line) :
      ∃ item, Stated item ∧ Entries.get? name (Entries.attributes item) = some mention.2 := by
    obtain ⟨entry, present, found⟩ := List.mem_filterMap.mp member
    obtain ⟨value, known, same⟩ := Option.map_eq_some_iff.mp found
    exact ⟨entry.2, documents entry present, same ▸ known⟩
  apply attributeFrom_attributeAlong
  · intro mention member
    obtain ⟨item, document, found⟩ := origin member
    exact document.plain_attributes.of_get? found
  · intro mention member
    obtain ⟨item, document, found⟩ := origin member
    exact document.unsourced (name, mention.2) (Entries.mem_of_get? found)

/-! ### Every item inherits along its line -/

/-- A flattened item told from its line, the youngest item first: every attribute from what the
items state about it, and every other field from what they state under that field. -/
structure Inherits (kind : ItemKind) (line : List (Text × Fields)) (flat : Fields) : Prop where
  attributes : ∃ attributes, Entries.get? "attributes" flat = some (.record attributes) ∧
    Entries.Distinct attributes ∧
    ∀ name, AttributeFrom (mentions name line) (Entries.get? name attributes)
  fields : ∀ field : Text, field ≠ "attributes" →
    Entries.get? field flat = fieldAlong kind line field

def Documents (items : Fields) : Prop :=
  ∀ key value, Entries.get? key items = some value → ∃ item, value = .record item ∧ Stated item

private theorem Documents.stated_of_mem {items : Fields} (documents : Documents items)
    {line : List (Text × Fields)} (ancestry : Ancestry items line) :
    ∀ entry ∈ line, Stated entry.2 := by
  induction ancestry with
  | @root key mark item found start =>
      intro entry member
      obtain ⟨itself, same, document⟩ := documents key _ found
      injection same with _ same
      exact List.mem_singleton.mp member ▸ same ▸ document
  | @child key mark item parent above found fresh next older ih =>
      intro entry member
      rcases List.mem_cons.mp member with here | there
      · obtain ⟨itself, same, document⟩ := documents key _ found
        injection same with _ same
        exact here ▸ same ▸ document
      · exact ih entry there

private theorem inherits_of_flat {kind : ItemKind} {items : Fields} (documents : Documents items)
    {key : Text} {flat : Fields} (computed : Flat kind items key flat) :
    ∃ item above, Ancestry items ((key, item) :: above) ∧
      Inherits kind ((key, item) :: above) flat := by
  obtain ⟨item, above, line, inherited⟩ := computed
  have stated := documents.stated_of_mem line
  obtain ⟨_, attributes, again, holds, heritable, told, fields⟩ := inherit_ok kind line stated
  rw [inherited] at again
  cases again
  refine ⟨item, above, line, ⟨attributes, holds, heritable.distinct, fun name => ?_⟩, fields⟩
  rw [told]
  exact attributeFrom_line stated name

/-- Whatever items with lines are asked for, in whatever order and however often, each is flattened
without a fault to what it inherits along its line. -/
theorem flatten_inherits (kind : ItemKind) {items : Fields} (documents : Documents items)
    {requests : List Text}
    (lines : ∀ key ∈ requests, ∃ item above, Ancestry items ((key, item) :: above)) (run : Run) :
    ∃ flats kept after,
      (requests.mapM (flatten kind items [])).outcome [] run = (.ok flats, kept, after) ∧
      List.Forall₂ (fun key flat => ∃ item above, Ancestry items ((key, item) :: above) ∧
        Inherits kind ((key, item) :: above) flat) requests flats := by
  have flats : ∀ key ∈ requests, ∃ flat, Flat kind items key flat := by
    intro key member
    obtain ⟨item, above, line⟩ := lines key member
    obtain ⟨flat, _, computed, _⟩ :=
      inherit_ok kind line (documents.stated_of_mem line)
    exact ⟨flat, item, above, line, computed⟩
  obtain ⟨results, kept, after, ran, each⟩ := flatten_requests run Sound.nil flats
  exact ⟨results, kept, after, ran, each.imp fun key flat => inherits_of_flat documents⟩

/-- Three objects in a line: the one in the middle removes an attribute, and the youngest brings it
back. -/
def threeInLine : Fields := [
  ("base", .record [
    ("name", .text "base"),
    ("profiles", .array [.text "host"]),
    ("attributes", .record [
      ("size", .record [("type", .text "integer_t"), ("requirement", .text "required")]),
      ("label", .record [("type", .text "string_t")])])]),
  ("middle", .record [
    ("extends", .text "base"),
    ("attributes", .record [("size", .null), ("label", .record [("caption", .text "Label")])])]),
  ("leaf", .record [
    ("extends", .text "middle"),
    ("profiles", .array [.text "cloud", .text "host"]),
    ("attributes", .record [("size", .record [("type", .text "long_t")])])])]

private theorem documents_threeInLine : Documents threeInLine := by
  intro key value found
  have member := Entries.mem_of_get? found
  simp only [threeInLine, List.mem_cons, Prod.mk.injEq, List.not_mem_nil, or_false] at member
  rcases member with ⟨_, rfl⟩ | ⟨_, rfl⟩ | ⟨_, rfl⟩
  · refine ⟨_, rfl, rfl, by decide, ?_, by decide, by decide, ?_, rfl⟩
    · rintro value ⟨⟩
      rfl
    · rintro value ⟨⟩
      exact ⟨["host"], rfl⟩
  · refine ⟨_, rfl, rfl, by decide, ?_, by decide, by decide, TextList.none, rfl⟩
    rintro value ⟨⟩
    rfl
  · refine ⟨_, rfl, rfl, by decide, ?_, by decide, by decide, ?_, rfl⟩
    · rintro value ⟨⟩
      rfl
    · rintro value ⟨⟩
      exact ⟨["cloud", "host"], rfl⟩

/-- The youngest object is asked for before the oldest one. -/
theorem flatten_inherits_threeInLine :
    ∃ flats kept after,
      ((["leaf", "base"] : List Text).mapM (flatten .object threeInLine [])).outcome [] {} =
        (.ok flats, kept, after) ∧
      List.Forall₂ (fun key flat => ∃ item above, Ancestry threeInLine ((key, item) :: above) ∧
        Inherits .object ((key, item) :: above) flat) ["leaf", "base"] flats := by
  have oldest : Ancestry threeInLine [("base", _)] := .root rfl (Or.inr rfl)
  have line : Ancestry threeInLine [("leaf", _), ("middle", _), ("base", _)] :=
    .child rfl rfl rfl (.child rfl rfl rfl oldest)
  refine flatten_inherits .object documents_threeInLine ?_ {}
  intro key member
  simp only [List.mem_cons, List.not_mem_nil, or_false] at member
  rcases member with rfl | rfl
  · exact ⟨_, _, line⟩
  · exact ⟨_, _, oldest⟩

end EventSchema.Lineage
