import Mathlib.Data.List.Forall2
import EventSchema.Value.Access

/-!
Entries and their keys.

What is found under a key after each operation, which keys there are, and when no key comes twice.
Entries without repeated keys are what an object of a document is, and every operation keeps them so.
-/

set_option autoImplicit false

namespace EventSchema

variable {α β : Type}

/-! ### Lists that are related place by place -/

theorem exists_left_of_mem {relation : α → β → Prop} {left : List α} {right : List β}
    (related : List.Forall₂ relation left right) {value : β} (member : value ∈ right) :
    ∃ origin ∈ left, relation origin value := by
  induction related with
  | nil => cases member
  | @cons origin _ left _ first later ih =>
      rcases List.mem_cons.mp member with here | there
      · exact ⟨origin, List.mem_cons_self .., here ▸ first⟩
      · obtain ⟨known, before, held⟩ := ih there
        exact ⟨known, List.mem_cons_of_mem _ before, held⟩

theorem exists_right_of_mem {relation : α → β → Prop} {left : List α} {right : List β}
    (related : List.Forall₂ relation left right) {origin : α} (member : origin ∈ left) :
    ∃ value ∈ right, relation origin value := by
  obtain ⟨value, known, held⟩ := exists_left_of_mem related.flip member
  exact ⟨value, known, held⟩

namespace Entries

/-! ### What is found under a key -/

def Distinct (entries : Entries α) : Prop := (keys entries).Nodup

instance (entries : Entries α) : Decidable (Distinct entries) :=
  inferInstanceAs (Decidable (keys entries).Nodup)

@[simp]
theorem get?_nil (key : Text) : get? key ([] : Entries α) = none := rfl

theorem get?_cons (key : Text) (entry : Text × α) (rest : Entries α) :
    get? key (entry :: rest) = if entry.1 = key then some entry.2 else get? key rest := rfl

theorem get?_eq_none_iff {key : Text} {entries : Entries α} :
    get? key entries = none ↔ key ∉ keys entries := by
  induction entries with
  | nil => simp [keys]
  | cons head rest ih =>
      rw [get?_cons]
      by_cases same : head.1 = key
      · simp [keys, same]
      · simp only [if_neg same, ih, keys, List.map_cons, List.mem_cons, not_or]
        exact ⟨fun absent => ⟨Ne.symm same, absent⟩, fun both => both.2⟩

theorem has_iff_mem_keys {key : Text} {entries : Entries α} :
    has key entries = true ↔ key ∈ keys entries := by
  rw [has, Option.isSome_iff_ne_none, Ne, get?_eq_none_iff, not_not]

/-- Entries with the same keys answer alike whether they have one. -/
theorem has_congr {β : Type} {left : Entries α} {right : Entries β} (same : keys left = keys right) (key : Text) :
    has key left = has key right := by
  rw [Bool.eq_iff_iff, has_iff_mem_keys, has_iff_mem_keys, same]

theorem mem_keys_of_get? {key : Text} {value : α} {entries : Entries α}
    (found : get? key entries = some value) : key ∈ keys entries := by
  rw [← has_iff_mem_keys, has, found]
  rfl

theorem mem_of_get? {key : Text} {value : α} {entries : Entries α}
    (found : get? key entries = some value) : (key, value) ∈ entries := by
  induction entries with
  | nil => cases found
  | cons head rest ih =>
      rw [get?_cons] at found
      by_cases same : head.1 = key
      · rw [if_pos same] at found
        have equal : (key, value) = head := by
          rw [← same, ← Option.some.inj found]
        exact equal ▸ List.mem_cons_self ..
      · rw [if_neg same] at found
        exact List.mem_cons_of_mem _ (ih found)

theorem get?_of_mem {key : Text} {value : α} {entries : Entries α} (distinct : Distinct entries)
    (member : (key, value) ∈ entries) : get? key entries = some value := by
  induction entries with
  | nil => cases member
  | cons head rest ih =>
      have split := List.nodup_cons.mp distinct
      rw [get?_cons]
      rcases List.mem_cons.mp member with here | later
      · subst here
        rw [if_pos rfl]
      · have different : head.1 ≠ key := by
          intro same
          exact split.1 (same ▸ List.mem_map_of_mem (f := Prod.fst) later)
        rw [if_neg different]
        exact ih split.2 later

/-- What is found under a key does not depend on the order of the entries. -/
theorem get?_of_perm {left right : Entries α} (distinct : Distinct left) (perm : right.Perm left) (key : Text) :
    get? key right = get? key left := by
  have distinctRight : Distinct right := (perm.map Prod.fst).nodup_iff.mpr distinct
  refine Option.ext fun value => ⟨fun found => ?_, fun found => ?_⟩
  · exact get?_of_mem distinct (perm.mem_iff.mp (mem_of_get? found))
  · exact get?_of_mem distinctRight (perm.mem_iff.mpr (mem_of_get? found))

theorem get?_put (key other : Text) (value : α) (entries : Entries α) :
    get? other (put key value entries) =
      if other = key then some value else get? other entries := by
  by_cases same : other = key
  · rw [if_pos same, same, get?_put_self]
  · rw [if_neg same, get?_put_of_ne (Ne.symm same)]

theorem mem_of_mem_put {key : Text} {value : α} {entries : Entries α} {entry : Text × α}
    (member : entry ∈ put key value entries) : entry = (key, value) ∨ entry ∈ entries := by
  induction entries with
  | nil => exact Or.inl (List.mem_singleton.mp member)
  | cons head rest ih =>
      obtain ⟨known, old⟩ := head
      rw [put] at member
      by_cases same : known = key
      · rw [if_pos same] at member
        rcases List.mem_cons.mp member with here | later
        · exact Or.inl (same ▸ here)
        · exact Or.inr (List.mem_cons_of_mem _ later)
      · rw [if_neg same] at member
        rcases List.mem_cons.mp member with here | later
        · exact Or.inr (here ▸ List.mem_cons_self ..)
        · exact (ih later).imp id (List.mem_cons_of_mem _)

theorem get?_filter (keep : Text → Bool) (key : Text) (entries : Entries α) :
    get? key (entries.filter fun entry => keep entry.1) =
      if keep key then get? key entries else none := by
  induction entries with
  | nil => simp
  | cons head rest ih =>
      rw [List.filter_cons, get?_cons key head]
      by_cases same : head.1 = key
      · by_cases kept : keep key = true
        · simp [get?_cons, same, kept]
        · simp only [same, kept, Bool.false_eq_true, if_false] at ih ⊢
          exact ih
      · by_cases kept : keep head.1 = true
        · simp [get?_cons, same, kept, ih]
        · simp [same, kept, ih]

theorem get?_erase (key other : Text) (entries : Entries α) :
    get? other (erase key entries) = if other = key then none else get? other entries := by
  have found := get?_filter (fun name => decide (name ≠ key)) other entries
  simp only [erase]
  rw [found]
  by_cases same : other = key <;> simp [same]

theorem get?_foldl_erase (keys : List Text) (field : Text) (fields : Entries α) :
    get? field (keys.foldl (fun fields key => erase key fields) fields) =
      if field ∈ keys then none else get? field fields := by
  induction keys generalizing fields with
  | nil => rfl
  | cons key rest ih =>
      rw [List.foldl_cons, ih, get?_erase]
      by_cases later : field ∈ rest
      · rw [if_pos later, if_pos (List.mem_cons_of_mem _ later)]
      · by_cases same : field = key
        · rw [if_neg later, if_pos same, if_pos (same ▸ List.mem_cons_self ..)]
        · rw [if_neg later, if_neg same,
            if_neg (fun member => (List.mem_cons.mp member).elim same later)]

theorem erase_cons (key : Text) (entry : Text × α) (rest : Entries α) :
    erase key (entry :: rest) = if entry.1 = key then erase key rest else entry :: erase key rest := by
  unfold erase
  rw [List.filter_cons]
  by_cases same : entry.1 = key <;> simp [same]

theorem erase_of_absent {key : Text} {entries : Entries α} (absent : get? key entries = none) :
    erase key entries = entries := by
  refine List.filter_eq_self.mpr fun entry member => decide_eq_true fun same => ?_
  exact get?_eq_none_iff.mp absent (same ▸ List.mem_map_of_mem member)

theorem erase_put_of_ne {key other : Text} (different : key ≠ other) (value : α)
    (entries : Entries α) :
    erase other (put key value entries) = put key value (erase other entries) := by
  induction entries with
  | nil => simp [put, erase, different]
  | cons head rest ih =>
      obtain ⟨known, old⟩ := head
      rw [put, erase_cons]
      by_cases same : known = key
      · rw [if_pos same, erase_cons, if_neg (same ▸ different), if_neg (same ▸ different), put,
          if_pos same]
      · rw [if_neg same, erase_cons, ih]
        by_cases dropped : known = other
        · rw [if_pos dropped, if_pos dropped]
        · rw [if_neg dropped, if_neg dropped, put, if_neg same]

theorem erase_put_self (key : Text) (value : α) (entries : Entries α) :
    erase key (put key value entries) = erase key entries := by
  induction entries with
  | nil => rw [put, erase_cons, if_pos rfl]
  | cons head rest ih =>
      rw [put]
      split
      · rename_i same
        rw [erase_cons, erase_cons, if_pos same, if_pos same]
      · rename_i other
        rw [erase_cons, erase_cons, if_neg other, if_neg other, ih]

/-- Writing what is there already changes nothing. -/
theorem put_of_get? {key : Text} {value : α} {entries : Entries α}
    (found : get? key entries = some value) : put key value entries = entries := by
  induction entries with
  | nil => cases found
  | cons head rest ih =>
      obtain ⟨known, old⟩ := head
      rw [get?_cons] at found
      rw [put]
      by_cases same : known = key
      · rw [if_pos same] at found ⊢
        rw [← Option.some.inj found]
      · rw [if_neg same] at found ⊢
        rw [ih found]

/-- The last value written under a key is the one that stays. -/
theorem put_put (key : Text) (first second : α) (entries : Entries α) :
    put key second (put key first entries) = put key second entries := by
  induction entries with
  | nil => rw [put, put, put, if_pos rfl]
  | cons head rest ih =>
      obtain ⟨known, old⟩ := head
      rw [put, put]
      by_cases same : known = key
      · rw [if_pos same, if_pos same, put, if_pos same]
      · rw [if_neg same, if_neg same, put, if_neg same, ih]

/-- A key that is there keeps its place, so another one may be written before it or after it. -/
theorem put_put_of_has {key other : Text} (different : key ≠ other) {entries : Entries α}
    (present : has key entries = true) (value given : α) :
    put key value (put other given entries) = put other given (put key value entries) := by
  induction entries with
  | nil => cases present
  | cons head rest ih =>
      obtain ⟨known, old⟩ := head
      by_cases same : known = key
      · subst same
        rw [put, put, if_neg different, if_pos rfl, put, if_pos rfl, put, if_neg different]
      · have later : has key rest = true := by
          rwa [has, get?_cons, if_neg same] at present
        by_cases here : known = other
        · rw [put, if_pos here, put, if_neg same, put, if_neg same, put, if_pos here]
        · rw [put, if_neg here, put, if_neg same, put, if_neg same, put, if_neg here, ih later]

theorem get?_putNew (key other : Text) (value : α) (entries : Entries α) :
    get? other (putNew key value entries) =
      if other = key ∧ get? key entries = none then some value else get? other entries := by
  unfold putNew
  by_cases present : has key entries = true
  · have found : get? key entries ≠ none := by
      rw [Ne, get?_eq_none_iff, not_not]
      exact has_iff_mem_keys.mp present
    rw [if_pos present, if_neg (fun both => found both.2)]
  · have absent : get? key entries = none := by
      rw [get?_eq_none_iff]
      exact fun member => present (has_iff_mem_keys.mpr member)
    rw [if_neg present, get?_put]
    by_cases same : other = key <;> simp [same, absent]

theorem get?_mapValues (f : α → β) (key : Text) (entries : Entries α) :
    get? key (mapValues f entries) = (get? key entries).map f := by
  induction entries with
  | nil => rfl
  | cons head rest ih =>
      change get? key ((head.1, f head.2) :: mapValues f rest) = _
      rw [get?_cons, get?_cons, ih]
      by_cases same : head.1 = key <;> simp [same]

theorem keys_mapValues (f : α → β) (entries : Entries α) :
    keys (mapValues f entries) = keys entries := by
  simp [keys, mapValues]

theorem keys_filter (keep : Text → Bool) (entries : Entries α) :
    keys (entries.filter fun entry => keep entry.1) = (keys entries).filter keep := by
  simp only [keys, List.filter_map]
  rfl

theorem get?_append (key : Text) (left right : Entries α) :
    get? key (left ++ right) = (get? key left).or (get? key right) := by
  induction left with
  | nil => rfl
  | cons head rest ih =>
      rw [List.cons_append, get?_cons, get?_cons, ih]
      by_cases same : head.1 = key <;> simp [same]

theorem put_append_of_absent {key : Text} {left : Entries α} (absent : key ∉ keys left) (value : α)
    (right : Entries α) : put key value (left ++ right) = left ++ put key value right := by
  induction left with
  | nil => rfl
  | cons head rest ih =>
      obtain ⟨known, old⟩ := head
      have apart : known ≠ key ∧ key ∉ keys rest := by
        simp only [keys, List.map_cons, List.mem_cons, not_or] at absent
        exact ⟨Ne.symm absent.1, absent.2⟩
      rw [List.cons_append, put, if_neg apart.1, ih apart.2, List.cons_append]

end Entries

def Value.inner : Value → Fields
  | .object _ fields => fields
  | _ => []

theorem Value.inner_record (fields : Fields) : (Value.record fields).inner = fields := rfl

theorem Value.inner_of_asFields {value : Value} {fields : Fields}
    (opened : value.asFields = .ok fields) : ∃ mark, value = .object mark fields := by
  cases value with
  | object mark own => exact ⟨mark, by rw [Except.ok.inj opened]⟩
  | null | bool _ | int _ | float _ | text _ | array _ => cases opened

namespace Entries

def attributes (item : Fields) : Fields :=
  match get? "attributes" item with
  | some (.object _ attributes) => attributes
  | _ => []

theorem attributes_eq_inner (item : Fields) : attributes item = (orEmpty "attributes" item).inner := by
  unfold attributes orEmpty getOr
  cases get? "attributes" item with
  | none => rfl
  | some value => cases value <;> rfl

theorem attributes_of_orNull {item fields : Fields}
    (opened : (orNull "attributes" item).asFields = .ok fields) : attributes item = fields := by
  unfold orNull getOr at opened
  cases held : get? "attributes" item with
  | none =>
      rw [held] at opened
      cases opened
  | some value =>
      rw [held, Option.getD_some] at opened
      obtain ⟨mark, rfl⟩ := Value.inner_of_asFields opened
      rw [attributes, held]

theorem attributes_put (item : Fields) (mark : Option Nat) (fields : Fields) :
    attributes (put "attributes" (.object mark fields) item) = fields := by
  rw [attributes, get?_put_self]

theorem attributes_put_record (item fields : Fields) :
    attributes (put "attributes" (.record fields) item) = fields := attributes_put item none fields

theorem attributes_put_of_ne {key : Text} (different : key ≠ "attributes") (value : Value)
    (item : Fields) : attributes (put key value item) = attributes item := by
  rw [attributes, get?_put_of_ne different, attributes]

theorem orEmpty_put_self (key : Text) (value : Value) (fields : Fields) :
    orEmpty key (put key value fields) = value := by
  rw [orEmpty, getOr, get?_put_self, Option.getD_some]

theorem orEmpty_put_of_ne {key other : Text} (different : key ≠ other) (value : Value)
    (fields : Fields) : orEmpty other (put key value fields) = orEmpty other fields := by
  rw [orEmpty, getOr, get?_put_of_ne different, orEmpty, getOr]

/-! ### No key twice -/

theorem orNull_put_self (key : Text) (value : Value) (fields : Fields) :
    orNull key (put key value fields) = value := by
  rw [orNull, getOr, get?_put_self, Option.getD_some]

theorem orNull_congr {key : Text} {fields others : Fields} (same : get? key fields = get? key others) :
    orNull key fields = orNull key others := by
  rw [orNull, orNull, getOr, getOr, same]

theorem orNull_put_of_ne {key other : Text} (different : key ≠ other) (value : Value) (fields : Fields) :
    orNull other (put key value fields) = orNull other fields :=
  orNull_congr (get?_put_of_ne different value fields)

theorem Distinct.nil : Distinct ([] : Entries α) := List.nodup_nil

theorem Distinct.put {entries : Entries α} (distinct : Distinct entries) (key : Text) (value : α) :
    Distinct (Entries.put key value entries) := by
  unfold Distinct
  rw [keys_put]
  by_cases present : has key entries = true
  · rw [if_pos present]
    exact distinct
  · rw [if_neg present]
    have fresh : key ∉ keys entries := fun member => present (has_iff_mem_keys.mpr member)
    refine List.nodup_append.mpr ⟨distinct, by simp, ?_⟩
    intro other known last single same
    exact fresh (List.mem_singleton.mp single ▸ same ▸ known)

theorem Distinct.putNew {entries : Entries α} (distinct : Distinct entries) (key : Text)
    (value : α) : Distinct (Entries.putNew key value entries) := by
  unfold Entries.putNew
  split
  · exact distinct
  · exact distinct.put key value

theorem Distinct.filter {entries : Entries α} (distinct : Distinct entries)
    (keep : Text × α → Bool) : Distinct (entries.filter keep) :=
  List.Nodup.sublist (List.Sublist.map Prod.fst List.filter_sublist) distinct

theorem Distinct.erase {entries : Entries α} (distinct : Distinct entries) (key : Text) :
    Distinct (Entries.erase key entries) := distinct.filter _

theorem Distinct.mapValues {entries : Entries α} (distinct : Distinct entries) (f : α → β) :
    Distinct (Entries.mapValues f entries) := by
  unfold Distinct
  rw [keys_mapValues]
  exact distinct

def SameBeside (written : List Text) (before after : Entries α) : Prop :=
  ∀ key, key ∉ written → get? key after = get? key before

namespace SameBeside

variable {written : List Text} {before after : Entries α}

theorem refl (written : List Text) (entries : Entries α) : SameBeside written entries entries :=
  fun _ _ => rfl

theorem trans {last : Entries α} (first : SameBeside written before after)
    (later : SameBeside written after last) : SameBeside written before last :=
  fun key kept => (later key kept).trans (first key kept)

theorem mono {others : List Text} (same : SameBeside written before after)
    (more : ∀ key ∈ written, key ∈ others) : SameBeside others before after :=
  fun key kept => same key fun member => kept (more key member)

theorem put (same : SameBeside written before after) {key : Text} (member : key ∈ written) (value : α) :
    SameBeside written before (Entries.put key value after) := by
  intro other kept
  have different : key ≠ other := fun here => kept (here ▸ member)
  rw [get?_put_of_ne different, same other kept]

theorem erase (same : SameBeside written before after) {key : Text} (member : key ∈ written) :
    SameBeside written before (Entries.erase key after) := by
  intro other kept
  have different : other ≠ key := fun here => kept (here ▸ member)
  rw [get?_erase, if_neg different, same other kept]

end SameBeside

/-! ### Entries that are related place by place -/

def Related (relation : Text → α → β → Prop) (left : Entries α) (right : Entries β) : Prop :=
  List.Forall₂ (fun l r => r.1 = l.1 ∧ relation l.1 l.2 r.2) left right

variable {relation : Text → α → β → Prop} {left : Entries α} {right : Entries β}

theorem Related.imp {weaker : Text → α → β → Prop}
    (implied : ∀ key l r, relation key l r → weaker key l r) (related : Related relation left right) :
    Related weaker left right :=
  List.Forall₂.imp (fun _ _ both => ⟨both.1, implied _ _ _ both.2⟩) related

theorem Related.imp_mem {weaker : Text → α → β → Prop} (related : Related relation left right)
    (implied : ∀ key l r, (key, l) ∈ left → relation key l r → weaker key l r) : Related weaker left right := by
  induction related with
  | nil => exact List.Forall₂.nil
  | @cons entry result _ _ here _ ih =>
      refine List.Forall₂.cons ⟨here.1, implied _ _ _ (List.mem_cons_self ..) here.2⟩ (ih fun key l r member => ?_)
      exact implied key l r (List.mem_cons_of_mem _ member)

theorem Related.trans {γ : Type} {last : Entries γ} {second : Text → β → γ → Prop}
    (first : Related relation left right) (later : Related second right last) :
    Related (fun key l r => ∃ middle, relation key l middle ∧ second key middle r) left last := by
  induction first generalizing last with
  | nil => exact List.forall₂_nil_left_iff.mp later ▸ List.Forall₂.nil
  | cons here there ih =>
      obtain ⟨value, rest, ⟨same, held⟩, others, shape⟩ := List.forall₂_cons_left_iff.mp later
      rw [shape]
      exact List.Forall₂.cons ⟨same.trans here.1, _, here.2, here.1 ▸ held⟩ (ih others)

theorem Related.flip (related : Related relation left right) :
    Related (fun key r l => relation key l r) right left := by
  induction related with
  | nil => exact List.Forall₂.nil
  | cons here there ih => exact List.Forall₂.cons ⟨here.1.symm, here.1 ▸ here.2⟩ ih

theorem Related.filter (related : Related relation left right) (keep : Text → Bool) :
    Related relation (left.filter fun entry => keep entry.1) (right.filter fun entry => keep entry.1) := by
  induction related with
  | nil => exact List.Forall₂.nil
  | @cons entry result left right here there ih =>
      rw [List.filter_cons, List.filter_cons, here.1]
      cases keep entry.1 with
      | true => exact List.Forall₂.cons here ih
      | false => exact ih

theorem related_mapValues {f : α → β} (each : ∀ entry ∈ left, relation entry.1 entry.2 (f entry.2)) :
    Related relation left (mapValues f left) := by
  induction left with
  | nil => exact List.Forall₂.nil
  | cons head rest ih =>
      obtain ⟨here, there⟩ := List.forall_mem_cons.mp each
      exact List.Forall₂.cons ⟨rfl, here⟩ (ih there)

theorem Related.eq_mapValues {f : α → β} (related : Related (fun _ value result => result = f value) left right) :
    right = mapValues f left := by
  induction related with
  | nil => rfl
  | @cons entry result _ _ one _ ih =>
      rw [ih]
      exact congrArg (· :: _) (Prod.ext one.1 one.2)

/-- Entries in the same order that are related wherever they are found. -/
theorem related_of_get? (same : keys left = keys right) (distinct : Distinct left)
    (each : ∀ key l, get? key left = some l → ∃ r, get? key right = some r ∧ relation key l r) :
    Related relation left right := by
  induction left generalizing right with
  | nil =>
      cases right with
      | nil => exact List.Forall₂.nil
      | cons head rest => cases same
  | cons head rest ih =>
      cases right with
      | nil => cases same
      | cons other others =>
          obtain ⟨first, later⟩ := List.cons.inj same
          obtain ⟨fresh, distinctRest⟩ := List.nodup_cons.mp distinct
          obtain ⟨r, found, relates⟩ := each head.1 head.2 (by rw [get?_cons, if_pos rfl])
          rw [get?_cons, if_pos first.symm, Option.some.injEq] at found
          refine List.Forall₂.cons ⟨first.symm, found ▸ relates⟩ (ih later distinctRest fun key l held => ?_)
          have apart : head.1 ≠ key := fun here => fresh (here ▸ mem_keys_of_get? held)
          obtain ⟨r, found, relates⟩ := each key l (by rw [get?_cons, if_neg apart, held])
          rw [get?_cons, if_neg (first ▸ apart)] at found
          exact ⟨r, found, relates⟩

theorem eq_of_get? {others entries : Entries α} (same : keys others = keys entries) (distinct : Distinct others)
    (each : ∀ key, get? key others = get? key entries) : others = entries := by
  have related : Related (fun _ value result => result = id value) others entries :=
    related_of_get? same distinct fun key value held => ⟨value, (each key).symm.trans held, rfl⟩
  rw [related.eq_mapValues]
  exact (List.map_id _).symm

theorem Related.keys_eq (related : Related relation left right) : keys right = keys left := by
  induction related with
  | nil => rfl
  | cons first later ih =>
      change _ :: keys _ = _ :: keys _
      rw [first.1, ih]

theorem Related.distinct (related : Related relation left right) (distinct : Distinct left) :
    Distinct right := by
  unfold Distinct
  rw [related.keys_eq]
  exact distinct

/-- Entries that come from the same ones in ways that agree are the same. -/
theorem Related.unique {second : Text → α → β → Prop} {other : Entries β}
    (related : Related relation left right) (also : Related second left other)
    (agree : ∀ entry ∈ left, ∀ l r, relation entry.1 entry.2 l → second entry.1 entry.2 r → l = r) :
    right = other := by
  induction related generalizing other with
  | nil => exact (List.forall₂_nil_left_iff.mp also).symm
  | @cons entry result rest results one later ih =>
      obtain ⟨result', rest', one', later', rfl⟩ := List.forall₂_cons_left_iff.mp also
      rw [ih later' fun entry member => agree entry (List.mem_cons_of_mem _ member)]
      congr 1
      exact Prod.ext (one.1.trans one'.1.symm)
        (agree entry (List.mem_cons_self ..) _ _ one.2 one'.2)

theorem Related.put (related : Related relation left right) {key : Text} {l : α} {r : β}
    (held : relation key l r) : Related relation (put key l left) (put key r right) := by
  induction related with
  | nil => exact List.Forall₂.cons ⟨rfl, held⟩ List.Forall₂.nil
  | @cons entry result left right first later ih =>
      rw [Entries.put, Entries.put, first.1]
      by_cases same : entry.1 = key
      · rw [if_pos same, if_pos same]
        exact List.Forall₂.cons ⟨rfl, same ▸ held⟩ later
      · rw [if_neg same, if_neg same]
        exact List.Forall₂.cons ⟨rfl, first.2⟩ ih

/-- Writing over a value relates the entries to themselves otherwise. -/
theorem related_put {relation : Text → α → α → Prop} {entries : Entries α} {key : Text} {old value : α}
    (same : ∀ key value, relation key value value) (found : get? key entries = some old)
    (held : relation key old value) : Related relation entries (put key value entries) := by
  have itself : Related relation entries entries := List.forall₂_same.mpr fun _ _ => ⟨rfl, same _ _⟩
  have written := itself.put held
  rw [put_of_get? found] at written
  exact written

theorem Related.get?_right (related : Related relation left right) {key : Text} {value : β}
    (found : get? key right = some value) :
    ∃ origin, get? key left = some origin ∧ relation key origin value := by
  induction related with
  | nil => cases found
  | @cons l r left right first later ih =>
      rw [get?_cons] at found ⊢
      rw [first.1] at found
      by_cases same : l.1 = key
      · rw [if_pos same] at found ⊢
        exact ⟨l.2, rfl, Option.some.inj found ▸ same ▸ first.2⟩
      · rw [if_neg same] at found ⊢
        exact ih found

theorem Related.get?_left (related : Related relation left right) {key : Text} {origin : α}
    (found : get? key left = some origin) :
    ∃ value, get? key right = some value ∧ relation key origin value := by
  have present : has key right = true := by
    rw [has_iff_mem_keys, related.keys_eq]
    exact mem_keys_of_get? found
  obtain ⟨value, held⟩ := Option.isSome_iff_exists.mp present
  obtain ⟨other, known, relates⟩ := related.get?_right held
  cases found.symm.trans known
  exact ⟨value, held, relates⟩

theorem Related.mem_right (related : Related relation left right) {entry : Text × β}
    (member : entry ∈ right) : ∃ origin, (entry.1, origin) ∈ left ∧ relation entry.1 origin entry.2 := by
  obtain ⟨⟨key, origin⟩, known, same, held⟩ := exists_left_of_mem related member
  exact ⟨origin, same ▸ known, same ▸ held⟩

end Entries

end EventSchema
