import Mathlib.Data.List.Nodup
import EventSchema.Draft.Links
import EventSchema.Proofs.Draft.Attributes
import EventSchema.Proofs.Profiles
import EventSchema.Proofs.Value.Same

/-!
What the references between items come to.

The references under one key are a list that grows with the items: each item that refers to the key
adds one, and no other item adds any. So each of the three indexes is told by one equation over the
list of all items.
-/

set_option autoImplicit false

namespace EventSchema

/-! ### Indexes -/

namespace Index

variable {α : Type}

theorem get?_alter {key asked : Value} (isKey : key.isKey = true) (isKey' : asked.isKey = true)
    (change : Option α → α) (index : Index α) : get? asked (alter key change index) =
      if key.same asked then some (change (get? asked index)) else get? asked index := by
  induction index with
  | nil =>
      rw [alter, get?, get?]
      rfl
  | cons head rest ih =>
      obtain ⟨known, value⟩ := head
      rw [alter]
      by_cases here : known.same key = true
      · have held : known.isKey = true := (Value.isKey_of_same here).trans isKey
        have equal : known.same asked = key.same asked := by
          rw [Bool.eq_iff_iff, Value.same_iff_leafCode held isKey', Value.same_iff_leafCode isKey isKey',
            (Value.same_iff_leafCode held isKey).mp here]
        rw [if_pos here, get?, get?, equal]
        split <;> rfl
      · rw [if_neg here, get?, get?, ih]
        by_cases found : known.same asked = true
        · have different : ¬key.same asked = true := by
            have held : known.isKey = true := (Value.isKey_of_same found).trans isKey'
            rw [Value.same_iff_leafCode isKey isKey', ← (Value.same_iff_leafCode held isKey').mp found]
            exact fun same => here ((Value.same_iff_leafCode held isKey).mpr same.symm)
          rw [if_pos found, if_pos found, if_neg different]
        · rw [if_neg found, if_neg found]

def under (key : Value) (index : Index (List α)) : List α := (get? key index).getD []

private theorem under_alter {key asked : Value} (isKey : key.isKey = true) (isKey' : asked.isKey = true)
    (change : Option (List α) → List α) (index : Index (List α)) : under asked (alter key change index) =
      if key.same asked then change (get? asked index) else under asked index := by
  rw [under, get?_alter isKey isKey']
  split <;> rfl

end Index

namespace Links

def ofAttribute (name : Text) (links : Links) : List Link := (Entries.get? name links.attributes).getD []

/-- The references under the key of an object, by the items that they come from. -/
def toObject (object : Text) (links : Links) : Entries Link :=
  (Index.get? (.text object) links.objects).getD []

def ofProfile (profile : Text) (links : Links) : List Link :=
  (Index.get? (.text profile) links.profiles).getD []

def refersTo (object : Text) : Value → Bool
  | .object _ field =>
    Entries.orNull "type" field = .text "object_t" ∧
      Entries.orNull "object_type" field = .text object
  | _ => false

def namesTo (object : Text) (attributes : Fields) : List Text :=
  Entries.keys (attributes.filter fun entry => refersTo object entry.2)

def refersBy (key : Value) : Value → Bool
  | .object _ field =>
      (Entries.orNull "type" field).equals (.text "object_t") && (Entries.orNull "object_type" field).same key
  | _ => false

def namesBy (key : Value) (attributes : Fields) : List Text :=
  Entries.keys (attributes.filter fun entry => refersBy key entry.2)

private theorem refersBy_text (object : Text) (value : Value) : refersBy (.text object) value =
    refersTo object value := by
  cases value with
  | object mark field =>
      rw [Bool.eq_iff_iff, refersBy, refersTo, Bool.and_eq_true, Value.equals_text, Value.same_text, decide_eq_true_iff]
  | null | bool _ | int _ | float _ | text _ | array _ => rfl

private theorem namesBy_text (object : Text) (attributes : Fields) :
    namesBy (.text object) attributes = namesTo object attributes := by
  unfold namesBy namesTo
  simp only [refersBy_text]

/-! ### The attributes of an item -/

def groupKey (link : Link) : Text := link.group ++ ":" ++ link.type

variable {link : Link} {links after : Links}

private theorem addAttribute_ok {entry : Text × Value} (ran : addAttribute link links entry = .ok after) :
    after.profiles = links.profiles ∧
      (∀ name, ofAttribute name after =
        if name = entry.1 then ofAttribute name links ++ [link] else ofAttribute name links) ∧
      ∀ key : Value, key.isKey = true → Index.under key after.objects =
        if refersBy key entry.2 then
          match Entries.get? (groupKey link) (Index.under key links.objects) with
          | some other =>
            if other.attributeKeys.contains entry.1 then Index.under key links.objects
            else Entries.put (groupKey link)
              { other with attributeKeys := other.attributeKeys ++ [entry.1] }
              (Index.under key links.objects)
          | none => Entries.put (groupKey link) { link with attributeKeys := [entry.1] }
              (Index.under key links.objects)
        else Index.under key links.objects := by
  obtain ⟨name, value⟩ := entry
  unfold addAttribute at ran
  obtain ⟨field, itself, wrote⟩ := bind_eq_ok.mp ran
  clear ran
  obtain ⟨mark, rfl⟩ : ∃ mark, value = .object mark field := by
    cases value with
    | object mark fields => exact ⟨mark, by rw [Except.ok.inj itself]⟩
    | null | bool _ | int _ | float _ | text _ | array _ => cases itself
  have users (other : Text) :
      (Entries.get? other (Entries.put name ((Entries.get? name links.attributes).getD [] ++ [link])
        links.attributes)).getD [] =
        if other = name then ofAttribute other links ++ [link] else ofAttribute other links := by
    rw [Entries.get?_put]
    by_cases same : other = name
    · rw [if_pos same, if_pos same, same]
      rfl
    · rw [if_neg same, if_neg same]
      rfl
  by_cases type : (Entries.orNull "type" field).equals (.text "object_t") = true
  · rw [if_pos type] at wrote
    dsimp only at wrote
    by_cases isKey : (Entries.orNull "object_type" field).isKey = true
    · rw [if_pos isKey, pure_eq_ok] at wrote
      subst wrote
      refine ⟨rfl, users, fun key isKey' => ?_⟩
      rw [refersBy, type, Bool.true_and]
      dsimp only
      rw [addObject]
      exact Index.under_alter isKey isKey' _ links.objects
    · rw [if_neg isKey] at wrote
      cases wrote
  · rw [if_neg type, pure_eq_ok] at wrote
    subst wrote
    refine ⟨rfl, users, fun key _ => ?_⟩
    rw [refersBy, Bool.eq_false_iff.mpr type, Bool.false_and]
    rfl

/-- The reference to an object that an item makes by its attributes of the given names. -/
def reference (link : Link) (names : List Text) : Entries Link :=
  if names = [] then [] else [(groupKey link, { link with attributeKeys := names })]

private theorem get?_append_reference {known : Entries Link} (fresh : groupKey link ∉ Entries.keys known)
    (names : List Text) :
    Entries.get? (groupKey link) (known ++ reference link names) =
      if names = [] then none else some { link with attributeKeys := names } := by
  rw [Entries.get?_append, Entries.get?_eq_none_iff.mpr fresh, Option.none_or, reference]
  by_cases none : names = []
  · rw [if_pos none, if_pos none, Entries.get?_nil]
  · rw [if_neg none, if_neg none, Entries.get?_cons, if_pos rfl]

private theorem put_append_reference {known : Entries Link} (fresh : groupKey link ∉ Entries.keys known)
    (names : List Text) {more : List Text} (given : more ≠ []) :
    Entries.put (groupKey link) { link with attributeKeys := more } (known ++ reference link names) =
      known ++ reference link more := by
  rw [Entries.put_append_of_absent fresh, reference, reference, if_neg given]
  by_cases none : names = []
  · rw [if_pos none, Entries.put]
  · rw [if_neg none, Entries.put, if_pos rfl]

/-- An attribute that refers to an object adds its name to the reference that the item makes to that. -/
theorem under_addAttribute {entry : Text × Value} (ran : addAttribute link links entry = .ok after) {key : Value}
    (isKey : key.isKey = true) {known : Entries Link} {names : List Text} (fresh : groupKey link ∉ Entries.keys known)
    (unseen : entry.1 ∉ names) (told : Index.under key links.objects = known ++ reference link names) :
    Index.under key after.objects =
      known ++ reference link (names ++ if refersBy key entry.2 then [entry.1] else []) := by
  obtain ⟨_, _, referrers⟩ := addAttribute_ok ran
  have referred := referrers key isKey
  rw [told, get?_append_reference fresh] at referred
  by_cases refers : refersBy key entry.2 = true
  · rw [if_pos refers] at referred ⊢
    by_cases none : names = []
    · subst none
      rw [referred]
      exact put_append_reference fresh [] (List.cons_ne_nil _ _)
    · have new : ¬names.contains entry.1 = true := by rwa [List.contains_iff_mem]
      rw [referred, if_neg none]
      dsimp only
      rw [if_neg new]
      exact put_append_reference fresh names (List.append_ne_nil_of_right_ne_nil _ (List.cons_ne_nil _ _))
  · rw [if_neg refers] at referred ⊢
    rw [referred, List.append_nil]

private theorem namesBy_cons (key : Value) (entry : Text × Value) (rest : Fields) :
    namesBy key (entry :: rest) = (if refersBy key entry.2 then [entry.1] else []) ++ namesBy key rest := by
  unfold namesBy
  rw [List.filter_cons]
  split <;> rfl

private theorem addAttributes_ok {attributes : Fields} (distinct : Entries.Distinct attributes)
    (ran : attributes.foldlM (addAttribute link) links = .ok after) :
    after.profiles = links.profiles ∧
      (∀ name, ofAttribute name after =
        ofAttribute name links ++ if name ∈ Entries.keys attributes then [link] else []) ∧
      ∀ key : Value, key.isKey = true → ∀ known names, groupKey link ∉ Entries.keys known →
        (∀ name ∈ names, name ∉ Entries.keys attributes) →
        Index.under key links.objects = known ++ reference link names →
        Index.under key after.objects = known ++ reference link (names ++ namesBy key attributes) := by
  induction attributes generalizing links with
  | nil =>
      rw [List.foldlM_nil, pure_eq_ok] at ran
      subst ran
      refine ⟨rfl, fun name => ?_, ?_⟩
      · have absent : name ∉ Entries.keys ([] : Fields) := List.not_mem_nil
        rw [if_neg absent, List.append_nil]
      · intro key isKey known names fresh apart told
        rw [told]
        change _ = known ++ reference link (names ++ [])
        rw [List.append_nil]
  | cons head rest ih =>
      have split := List.nodup_cons.mp distinct
      rw [List.foldlM_cons] at ran
      obtain ⟨middle, first, later⟩ := bind_eq_ok.mp ran
      obtain ⟨profiles, users, _⟩ := addAttribute_ok first
      obtain ⟨profiles', users', referrers⟩ := ih split.2 later
      refine ⟨profiles'.trans profiles, ?_, ?_⟩
      · intro name
        rw [users', users]
        by_cases here : name = head.1
        · have absent : name ∉ Entries.keys rest := here ▸ split.1
          have present : name ∈ Entries.keys (head :: rest) := here ▸ List.mem_cons_self ..
          rw [if_pos here, if_neg absent, if_pos present, List.append_nil]
        · have same : name ∈ Entries.keys (head :: rest) ↔ name ∈ Entries.keys rest := by
            simp [Entries.keys, here]
          rw [if_neg here]
          simp only [same]
      · intro key isKey known names fresh apart told
        have unseen : head.1 ∉ names := fun member => apart head.1 member (List.mem_cons_self ..)
        have grown := under_addAttribute first isKey fresh unseen told
        rw [namesBy_cons, ← List.append_assoc]
        refine referrers key isKey known _ fresh (fun name member => ?_) grown
        rcases List.mem_append.mp member with before | last
        · exact fun inRest => apart name before (List.mem_cons_of_mem _ inRest)
        · split at last
          · exact List.mem_singleton.mp last ▸ split.1
          · cases last

/-! ### The items one after another -/

theorem addProfile_ok {profile : Value} (ran : addProfile link links profile = .ok after) :
    profile.isKey = true ∧ after.objects = links.objects ∧ after.attributes = links.attributes ∧
      ∀ key : Value, key.isKey = true → Index.under key after.profiles =
        if profile.same key then Index.under key links.profiles ++ [link] else Index.under key links.profiles := by
  unfold addProfile at ran
  by_cases isKey : profile.isKey = true
  · rw [if_pos isKey, Except.ok.injEq] at ran
    subst ran
    exact ⟨isKey, rfl, rfl, fun key isKey' => Index.under_alter isKey isKey' _ links.profiles⟩
  · rw [if_neg isKey] at ran
    cases ran

private theorem addProfiles_ok {profiles : List Value} (apart : Value.Apart profiles)
    (ran : profiles.foldlM (addProfile link) links = .ok after) :
    after.objects = links.objects ∧ after.attributes = links.attributes ∧
      ∀ key : Value, key.isKey = true → Index.under key after.profiles =
        Index.under key links.profiles ++ if key.isIn profiles then [link] else [] := by
  induction profiles generalizing links with
  | nil =>
      rw [List.foldlM_nil, pure_eq_ok] at ran
      subst ran
      exact ⟨rfl, rfl, fun key _ => (List.append_nil _).symm⟩
  | cons head rest ih =>
      have split := List.pairwise_cons.mp apart
      rw [List.foldlM_cons] at ran
      obtain ⟨middle, first, later⟩ := bind_eq_ok.mp ran
      obtain ⟨isKey, objects, attributes, told⟩ := addProfile_ok first
      obtain ⟨objects', attributes', told'⟩ := ih split.2 later
      refine ⟨objects'.trans objects, attributes'.trans attributes, fun key isKey' => ?_⟩
      have either : key.isIn (head :: rest) = (head.same key || key.isIn rest) := List.any_cons
      rw [told' key isKey', told key isKey', either]
      by_cases here : head.same key = true
      · have absent : ¬key.isIn rest = true := by
          rw [Value.isIn_iff]
          rintro ⟨other, member, equal⟩
          have held : other.isKey = true := (Value.isKey_of_same equal).trans isKey'
          have different := split.1 other member
          rw [(Value.same_iff_leafCode isKey held).mpr (((Value.same_iff_leafCode isKey isKey').mp here).trans
            ((Value.same_iff_leafCode held isKey').mp equal).symm)] at different
          cases different
        rw [if_pos here, if_neg absent, here, Bool.true_or, if_pos rfl, List.append_nil]
      · rw [if_neg here, Bool.eq_false_iff.mpr here, Bool.false_or]

end Links

/-- A class or an object with its key and the group that references tell it by. -/
structure Member (α : Type) where
  group : Text
  key : Text
  item : α

def members {α : Type} (classes objects : Entries α) : List (Member α) :=
  classes.map (fun entry => ⟨Links.classGroup entry.1, entry.1, entry.2⟩) ++
    objects.map fun entry => ⟨"object", entry.1, entry.2⟩

namespace Links

def linkTo (member : Member Fields) : Link := linkOf member.group member.key member.item

theorem ofItems_eq (classes objects : Entries Fields) :
    ofItems classes objects = (members classes objects).foldlM
      (fun links member => addItem member.group links (member.key, member.item)) {} := by
  unfold ofItems members
  rw [List.foldlM_append, List.foldlM_map]
  congr 1
  funext links
  rw [List.foldlM_map]

variable {links after : Links}

private theorem addItem_ok {member : Member Fields}
    (distinct : Entries.Distinct (Entries.attributes member.item))
    (apart : Value.Apart (Entries.profiles member.item))
    (ran : addItem member.group links (member.key, member.item) = .ok after) :
    (∀ name, ofAttribute name after = ofAttribute name links ++
        if name ∈ Entries.keys (Entries.attributes member.item) then [linkTo member] else []) ∧
      (∀ key : Value, key.isKey = true → Index.under key after.profiles = Index.under key links.profiles ++
        if key.isIn (Entries.profiles member.item) then [linkTo member] else []) ∧
      ∀ key : Value, key.isKey = true → groupKey (linkTo member) ∉ Entries.keys (Index.under key links.objects) →
        Index.under key after.objects = Index.under key links.objects ++
          reference (linkTo member) (namesBy key (Entries.attributes member.item)) := by
  unfold addItem at ran
  dsimp only at ran
  obtain ⟨attributes, found, ran⟩ := bind_eq_ok.mp ran
  obtain ⟨middle, first, ran⟩ := bind_eq_ok.mp ran
  obtain ⟨profiles, listed, later⟩ := bind_eq_ok.mp ran
  have same : Entries.profiles member.item = profiles := Entries.profiles_of_ok listed
  rw [Draft.attributes_of_ok found] at distinct ⊢
  rw [same] at apart ⊢
  obtain ⟨noProfiles, users, referrers⟩ := addAttributes_ok distinct first
  obtain ⟨sameObjects, sameAttributes, profiled⟩ := addProfiles_ok apart later
  refine ⟨fun name => ?_, fun key isKey => ?_, fun key isKey fresh => ?_⟩
  · rw [ofAttribute, sameAttributes]
    exact users name
  · rw [profiled key isKey, noProfiles]
    rfl
  · rw [sameObjects]
    refine referrers key isKey _ [] fresh (List.forall_mem_nil _) ?_
    exact (List.append_nil _).symm

private theorem keys_reference (link : Link) (names : List Text) :
    ∀ key ∈ Entries.keys (reference link names), key = groupKey link := by
  intro key member
  unfold reference at member
  by_cases none : names = []
  · rw [if_pos none] at member
    cases member
  · rw [if_neg none] at member
    exact List.mem_singleton.mp member

private theorem addItems_ok {items : List (Member Fields)}
    (distinct : ∀ member ∈ items, Entries.Distinct (Entries.attributes member.item))
    (apart : ∀ member ∈ items, Value.Apart (Entries.profiles member.item))
    (told : (items.map fun member => groupKey (linkTo member)).Nodup)
    (fresh : ∀ member ∈ items, ∀ key : Value, key.isKey = true →
      groupKey (linkTo member) ∉ Entries.keys (Index.under key links.objects))
    (ran : items.foldlM (fun links member => addItem member.group links (member.key, member.item))
      links = .ok after) :
    (∀ name, ofAttribute name after = ofAttribute name links ++ (items.filter fun member =>
        name ∈ Entries.keys (Entries.attributes member.item)).map linkTo) ∧
      (∀ key : Value, key.isKey = true → Index.under key after.profiles = Index.under key links.profiles ++
        (items.filter fun member => key.isIn (Entries.profiles member.item)).map linkTo) ∧
      ∀ key : Value, key.isKey = true → Index.under key after.objects = Index.under key links.objects ++
        items.flatMap fun member => reference (linkTo member) (namesBy key (Entries.attributes member.item)) := by
  induction items generalizing links with
  | nil =>
      rw [List.foldlM_nil, pure_eq_ok] at ran
      subst ran
      simp
  | cons head rest ih =>
      rw [List.foldlM_cons] at ran
      obtain ⟨middle, first, later⟩ := bind_eq_ok.mp ran
      obtain ⟨users, profiled, referrers⟩ := addItem_ok
        (distinct head (List.mem_cons_self ..)) (apart head (List.mem_cons_self ..)) first
      have split := List.nodup_cons.mp told
      have freshLater : ∀ member ∈ rest, ∀ key : Value, key.isKey = true →
          groupKey (linkTo member) ∉ Entries.keys (Index.under key middle.objects) := by
        intro member inRest key isKey present
        rw [referrers key isKey (fresh head (List.mem_cons_self ..) key isKey), Entries.keys,
          List.map_append] at present
        rcases List.mem_append.mp present with before | added
        · exact fresh member (List.mem_cons_of_mem _ inRest) key isKey before
        · have same := keys_reference _ _ _ added
          exact split.1 (List.mem_map.mpr ⟨member, inRest, same⟩)
      obtain ⟨users', profiled', referrers'⟩ := ih
        (fun member inRest => distinct member (List.mem_cons_of_mem _ inRest))
        (fun member inRest => apart member (List.mem_cons_of_mem _ inRest)) split.2 freshLater later
      refine ⟨fun name => ?_, fun key isKey => ?_, fun key isKey => ?_⟩
      · rw [users', users, List.append_assoc, List.filter_cons]
        by_cases named : name ∈ Entries.keys (Entries.attributes head.item) <;> simp [named]
      · rw [profiled' key isKey, profiled key isKey, List.append_assoc, List.filter_cons]
        by_cases has : key.isIn (Entries.profiles head.item) = true <;> simp [has]
      · rw [referrers' key isKey, referrers key isKey (fresh head (List.mem_cons_self ..) key isKey),
          List.append_assoc, List.flatMap_cons]

theorem ofItems_under {classes objects : Entries Fields}
    (distinct : ∀ member ∈ members classes objects,
      Entries.Distinct (Entries.attributes member.item))
    (apart : ∀ member ∈ members classes objects, Value.Apart (Entries.profiles member.item))
    (told : ((members classes objects).map fun member => groupKey (linkTo member)).Nodup)
    (ran : ofItems classes objects = .ok after) :
    (∀ name, ofAttribute name after = ((members classes objects).filter fun member =>
        name ∈ Entries.keys (Entries.attributes member.item)).map linkTo) ∧
      (∀ key : Value, key.isKey = true → Index.under key after.profiles =
        ((members classes objects).filter fun member => key.isIn (Entries.profiles member.item)).map linkTo) ∧
      ∀ key : Value, key.isKey = true → Index.under key after.objects =
        (members classes objects).flatMap fun member =>
          reference (linkTo member) (namesBy key (Entries.attributes member.item)) := by
  rw [ofItems_eq] at ran
  exact addItems_ok distinct apart told (fun _ _ _ _ => List.not_mem_nil) ran

theorem ofItems_ok {classes objects : Entries Fields}
    (distinct : ∀ member ∈ members classes objects,
      Entries.Distinct (Entries.attributes member.item))
    (apart : ∀ member ∈ members classes objects, Value.Apart (Entries.profiles member.item))
    (told : ((members classes objects).map fun member => groupKey (linkTo member)).Nodup)
    (ran : ofItems classes objects = .ok after) :
    (∀ name, ofAttribute name after = ((members classes objects).filter fun member =>
        name ∈ Entries.keys (Entries.attributes member.item)).map linkTo) ∧
      (∀ text, ofProfile text after = ((members classes objects).filter fun member =>
        .text text ∈ Entries.profiles member.item).map linkTo) ∧
      ∀ object, toObject object after = (members classes objects).flatMap fun member =>
        reference (linkTo member) (namesTo object (Entries.attributes member.item)) := by
  obtain ⟨users, profiled, referrers⟩ := ofItems_under distinct apart told ran
  refine ⟨users, fun text => (profiled (.text text) rfl).trans ?_,
    fun object => (referrers (.text object) rfl).trans ?_⟩
  · congr 2
    funext member
    rw [Bool.eq_iff_iff, Value.text_isIn, decide_eq_true_iff]
  · simp only [namesBy_text]

theorem readable_of_ofItems {classes objects : Entries Fields}
    (ran : ofItems classes objects = .ok after) :
    ∀ member ∈ members classes objects,
      (∀ entry ∈ Entries.attributes member.item, entry.2.isObject = true) ∧
        ∀ profile ∈ Entries.profiles member.item, profile.isKey = true := by
  intro member present
  rw [ofItems_eq] at ran
  obtain ⟨_, _, ran⟩ := exists_step_of_foldlM ran present
  unfold addItem at ran
  obtain ⟨attributes, found, ran⟩ := bind_eq_ok.mp ran
  obtain ⟨_, first, ran⟩ := bind_eq_ok.mp ran
  obtain ⟨profiles, listed, ran⟩ := bind_eq_ok.mp ran
  constructor
  · intro entry known
    rw [Draft.attributes_of_ok found] at known
    obtain ⟨_, _, ran⟩ := exists_step_of_foldlM first known
    obtain ⟨_, opened, _⟩ := bind_eq_ok.mp ran
    cases shape : entry.2 with
    | object mark fields => rfl
    | null | bool _ | int _ | float _ | text _ | array _ =>
        rw [shape] at opened
        cases opened
  · intro profile known
    have same : Entries.profiles member.item = profiles := Entries.profiles_of_ok listed
    obtain ⟨_, _, ran⟩ := exists_step_of_foldlM ran (same ▸ known)
    unfold addProfile at ran
    split at ran
    · assumption
    · cases ran

/-! ### Groups tell items apart -/

private theorem append_left_cancel {start left right : Text} (same : start ++ left = start ++ right) :
    left = right := by
  have codes := congrArg Text.codes same
  rw [Text.codes_append, Text.codes_append] at codes
  exact congrArg Text.mk (List.append_cancel_left codes)

/-- The first two codes of a spelled group tell the groups apart. -/
theorem spelled_ne {left right key other : Text}
    (different : left.codes.take 2 ≠ right.codes.take 2) (leftLong : 2 ≤ left.codes.length)
    (rightLong : 2 ≤ right.codes.length) : left ++ ":" ++ key ≠ right ++ ":" ++ other := by
  intro same
  have codes := congrArg (fun text => text.codes.take 2) same
  simp only [Text.codes_append, List.append_assoc] at codes
  rw [List.take_append_of_le_length leftLong, List.take_append_of_le_length rightLong] at codes
  exact different codes

private theorem classGroup_spelled_injective {key other : Text}
    (same : classGroup key ++ ":" ++ key = classGroup other ++ ":" ++ other) : key = other := by
  unfold classGroup at same
  by_cases base : key = "base_event"
  · by_cases otherBase : other = "base_event"
    · rw [base, otherBase]
    · rw [if_pos base, if_neg otherBase] at same
      exact absurd same (spelled_ne (by decide) (by decide) (by decide))
  · by_cases otherBase : other = "base_event"
    · rw [if_neg base, if_pos otherBase] at same
      exact absurd same (spelled_ne (by decide) (by decide) (by decide))
    · rw [if_neg base, if_neg otherBase] at same
      exact append_left_cancel same

/-- Two items of one kind with different keys are told apart, and so are a class and an object. -/
theorem nodup_groupKey {classes objects : Entries Fields} (classKeys : Entries.Distinct classes)
    (objectKeys : Entries.Distinct objects) :
    ((members classes objects).map fun member => groupKey (linkTo member)).Nodup := by
  unfold members
  rw [List.map_append, List.map_map, List.map_map]
  refine List.nodup_append.mpr ⟨?_, ?_, ?_⟩
  · have spelled := List.Nodup.map_on (f := fun key => classGroup key ++ ":" ++ key)
      (fun key _ other _ => classGroup_spelled_injective) classKeys
    rw [Entries.keys, List.map_map] at spelled
    exact spelled
  · have spelled := List.Nodup.map_on (f := fun key : Text => ("object" : Text) ++ ":" ++ key)
      (fun key _ other _ same => append_left_cancel same) objectKeys
    rw [Entries.keys, List.map_map] at spelled
    exact spelled
  · intro left inClasses right inObjects same
    obtain ⟨entry, _, spelled⟩ := List.mem_map.mp inClasses
    obtain ⟨other, _, spelled'⟩ := List.mem_map.mp inObjects
    rw [← spelled, ← spelled'] at same
    change classGroup entry.1 ++ ":" ++ entry.1 = ("object" : Text) ++ ":" ++ other.1 at same
    unfold classGroup at same
    by_cases base : entry.1 = "base_event"
    · rw [if_pos base] at same
      exact spelled_ne (by decide) (by decide) (by decide) same
    · rw [if_neg base] at same
      exact spelled_ne (by decide) (by decide) (by decide) same

end Links

end EventSchema
