import EventSchema.Proofs.Outcome
import EventSchema.Scope

/-!
The keys of one scope and all others.

An extension keeps what it defines under keys of its own scope. A name that is no such key, asked for
by no item of that extension, means the same with the entries of the scope as without them.

A name that is looked up inside a scope means the key of that scope if it names no scope itself and there is
such a key, and itself otherwise. It means at most one key, and whether it means one depends on the keys alone.
-/

set_option autoImplicit false

namespace EventSchema

/-! ### Texts by their beginnings -/

namespace Text

theorem leads_iff {part codes : List Nat} : leads part codes = true ↔ part <+: codes := by
  induction part generalizing codes with
  | nil => exact iff_of_true rfl (List.nil_prefix ..)
  | cons head rest ih =>
      cases codes with
      | nil => exact iff_of_false (fun impossible => by cases impossible) (by simp)
      | cons first later =>
          rw [leads, Bool.and_eq_true, beq_iff_eq, ih, List.cons_prefix_cons]

theorem startsWith_iff {text part : Text} : text.startsWith part = true ↔ part.codes <+: text.codes :=
  leads_iff

theorem hasSlash_iff {text : Text} : text.hasSlash = true ↔ slash ∈ text.codes := by
  rw [hasSlash, List.contains_iff_mem]

theorem codes_slash : ("/" : Text).codes = [slash] := by decide

end Text

namespace Scope

def owns (scope key : Text) : Bool := key.startsWith (scope ++ "/")

theorem owns_iff {scope key : Text} :
    owns scope key = true ↔ scope.codes ++ [Text.slash] <+: key.codes := by
  rw [owns, Text.startsWith_iff, Text.codes_append, Text.codes_slash]

theorem owns_within_self (scope name : Text) : owns scope (within scope name) = true := by
  rw [owns_iff, within, Text.codes_append, Text.codes_append, Text.codes_slash]
  exact List.prefix_append ..

/-- Only the scope of a key tells whether it lies in a scope. -/
theorem owns_within {scope : Text} (plain : scope.hasSlash = false) (other name : Text) :
    owns scope (within other name) = owns scope (other ++ "/") := by
  rw [Bool.eq_iff_iff, owns_iff, owns_iff, within, Text.codes_append, Text.codes_append,
    Text.codes_slash]
  constructor
  · intro front
    by_cases short : scope.codes.length ≤ other.codes.length
    · exact List.prefix_of_prefix_length_le front (List.prefix_append ..) (by simpa using short)
    · exfalso
      have inside : other.codes ++ [Text.slash] <+: scope.codes := by
        refine List.prefix_of_prefix_length_le (List.prefix_append ..)
          ((List.prefix_append ..).trans front) ?_
        rw [List.length_append, List.length_singleton]
        omega
      have slashed : Text.slash ∈ scope.codes := inside.subset (by simp)
      rw [Text.hasSlash_iff.mpr slashed] at plain
      cases plain
  · exact fun front => front.trans (List.prefix_append ..)

theorem owns_of_plain (scope : Text) {key : Text} (plain : key.hasSlash = false) :
    owns scope key = false := by
  rw [← Bool.not_eq_true, owns_iff]
  intro front
  have slashed : Text.slash ∈ key.codes := front.subset (by simp)
  rw [Text.hasSlash_iff.mpr slashed] at plain
  cases plain

/-- Two scopes that differ own none of each other's keys. -/
theorem owns_of_ne {scope other : Text} (plain : other.hasSlash = false) (different : other ≠ scope) :
    owns scope (other ++ "/") = false := by
  rw [← Bool.not_eq_true, owns_iff, Text.codes_append, Text.codes_slash]
  intro front
  by_cases same : scope.codes.length = other.codes.length
  · have equal := front.eq_of_length (by simpa using same)
    have codes : scope.codes = other.codes := (List.append_inj equal same).1
    apply different
    cases scope
    cases other
    exact congrArg Text.mk codes.symm
  · have inside : scope.codes ++ [Text.slash] <+: other.codes := by
      refine List.prefix_of_prefix_length_le front (List.prefix_append ..) ?_
      have bound := front.length_le
      simp only [List.length_append, List.length_singleton] at bound ⊢
      omega
    have slashed : Text.slash ∈ other.codes := inside.subset (by simp)
    rw [Text.hasSlash_iff.mpr slashed] at plain
    cases plain

end Scope

/-! ### Entries outside a scope -/

namespace Entries

variable {α β : Type} {scope key : Text}

def outside (scope : Text) (entries : Entries α) : Entries α :=
  entries.filter fun entry => !Scope.owns scope entry.1

theorem mem_outside {entries : Entries α} {entry : Text × α} :
    entry ∈ outside scope entries ↔ entry ∈ entries ∧ Scope.owns scope entry.1 = false := by
  rw [outside, List.mem_filter, Bool.not_eq_true']

theorem get?_outside (entries : Entries α) (free : Scope.owns scope key = false) :
    get? key (outside scope entries) = get? key entries := by
  have found := get?_filter (fun name => !Scope.owns scope name) key entries
  rw [free] at found
  exact found

theorem has_outside (entries : Entries α) (free : Scope.owns scope key = false) :
    has key (outside scope entries) = has key entries := by
  rw [has, has, get?_outside entries free]

theorem keys_outside (entries : Entries α) :
    keys (outside scope entries) = (keys entries).filter fun key => !Scope.owns scope key :=
  keys_filter (fun key => !Scope.owns scope key) entries

private theorem outside_cons (entry : Text × α) (rest : Entries α) :
    outside scope (entry :: rest) =
      if Scope.owns scope entry.1 then outside scope rest else entry :: outside scope rest := by
  rw [outside, List.filter_cons]
  cases Scope.owns scope entry.1 <;> rfl

theorem outside_put_of_owned (owned : Scope.owns scope key = true) (value : α)
    (entries : Entries α) : outside scope (put key value entries) = outside scope entries := by
  induction entries with
  | nil =>
      rw [put, outside_cons, if_pos owned]
  | cons head rest ih =>
      rw [put]
      split
      · rename_i same
        rw [outside_cons, outside_cons, same, if_pos owned, if_pos owned]
      · rw [outside_cons, outside_cons, ih]

theorem outside_put (free : Scope.owns scope key = false) (value : α) (entries : Entries α) :
    outside scope (put key value entries) = put key value (outside scope entries) := by
  induction entries with
  | nil =>
      rw [put, outside_cons, free]
      rfl
  | cons head rest ih =>
      rw [put]
      split
      · rename_i same
        rw [outside_cons, outside_cons, same, free, if_neg Bool.false_ne_true,
          if_neg Bool.false_ne_true, put, if_pos same, same]
      · rename_i different
        rw [outside_cons, outside_cons, ih]
        split
        · rfl
        · rw [put, if_neg different]

theorem outside_of_free {entries : Entries α}
    (free : ∀ entry ∈ entries, Scope.owns scope entry.1 = false) : outside scope entries = entries :=
  List.filter_eq_self.mpr fun entry member => by rw [free entry member, Bool.not_false]

theorem outside_map (f : Text × α → β) (entries : Entries α) :
    outside scope (entries.map fun entry => (entry.1, f entry)) =
      (outside scope entries).map fun entry => (entry.1, f entry) := by
  rw [outside, List.filter_map]
  rfl

theorem outside_filter (keep : Text × α → Bool) (entries : Entries α) :
    outside scope (entries.filter keep) = (outside scope entries).filter keep := by
  rw [outside, outside, List.filter_filter, List.filter_filter]
  congr 1
  funext entry
  rw [Bool.and_comm]

theorem Related.outside {full : Entries α} {done rest : Entries β}
    {first second : Text → α → β → Prop} (whole : Related first full done)
    (part : Related second (Entries.outside scope full) rest)
    (same : ∀ entry ∈ full, Scope.owns scope entry.1 = false → ∀ left right,
      first entry.1 entry.2 left → second entry.1 entry.2 right → left = right) :
    rest = Entries.outside scope done := by
  induction whole generalizing rest with
  | nil => exact List.forall₂_nil_left_iff.mp part
  | @cons entry result others results one later ih =>
      have next := fun member inside => same member (List.mem_cons_of_mem _ inside)
      rw [outside_cons] at part
      rw [outside_cons, one.1]
      by_cases owned : Scope.owns scope entry.1 = true
      · rw [if_pos owned] at part ⊢
        exact ih part next
      · rw [if_neg owned] at part ⊢
        obtain ⟨result', rest', one', later', shape⟩ := List.forall₂_cons_left_iff.mp part
        have equal := same entry (List.mem_cons_self ..) (Bool.not_eq_true _ ▸ owned) _ _
          one.2 one'.2
        rw [shape, ih later' next]
        congr 1
        exact Prod.ext (one'.1.trans one.1.symm) equal.symm

/-- Steps over entries of which those of the scope change nothing. -/
theorem foldlM_outside {first second : β → Text × α → Except Fault β} {entries : Entries α}
    {start result : β} (ran : entries.foldlM first start = .ok result)
    (owned : ∀ entry ∈ entries, Scope.owns scope entry.1 = true → ∀ state next,
      first state entry = .ok next → next = state)
    (free : ∀ entry ∈ entries, Scope.owns scope entry.1 = false → ∀ state,
      second state entry = first state entry) :
    (outside scope entries).foldlM second start = .ok result := by
  induction entries generalizing start with
  | nil => exact ran
  | cons head rest ih =>
      have later {next : β} (ran : rest.foldlM first next = .ok result) := ih ran
        (fun entry member => owned entry (List.mem_cons_of_mem _ member))
        (fun entry member => free entry (List.mem_cons_of_mem _ member))
      rw [List.foldlM_cons] at ran
      obtain ⟨middle, step, ran⟩ := bind_eq_ok.mp ran
      rw [outside_cons]
      by_cases inside : Scope.owns scope head.1 = true
      · rw [if_pos inside]
        rw [owned head (List.mem_cons_self ..) inside start middle step] at ran
        exact later ran
      · rw [if_neg inside, List.foldlM_cons,
          free head (List.mem_cons_self ..) (Bool.not_eq_true _ ▸ inside) start, step]
        exact later ran

end Entries

def Value.outside (scope : Text) : Value → Value
  | .object mark fields => .object mark (Entries.outside scope fields)
  | value => value

/-! ### What a name means -/

namespace Scope

/-- What an extension can be called: a name without a slash, and none that reads as an object. -/
structure Proper (scope : Text) : Prop where
  plain : scope.hasSlash = false
  unbraced : scope.startsWith "\x7b" = false

def NameOutside (scope : Text) (name : Value) : Prop :=
  ∀ text, name = .text text → owns scope text = false

def OwnerOutside (scope : Text) (owner : Value) : Prop :=
  owner.truthy = true → owns scope (owner.shown ++ "/") = false

instance (scope : Text) : DecidablePred (NameOutside scope)
  | .text text => decidable_of_iff (owns scope text = false)
    ⟨fun free _ same => Value.text.inj same ▸ free, fun outside => outside text rfl⟩
  | .null | .bool _ | .int _ | .float _ | .array _ | .object _ _ =>
    isTrue fun _ impossible => by cases impossible

instance (scope owner) : Decidable (OwnerOutside scope owner) :=
  inferInstanceAs (Decidable (owner.truthy = true → _))

variable {scope : Text} {α : Type}

private theorem findBy_congr {has other : Value → Except Fault Bool} {name : Value} {owner : Option Value}
    (same : has name = other name)
    (inside : ∀ given, owner = some given → given.truthy = true →
      has (.text (within given.shown name.shown)) = other (.text (within given.shown name.shown))) :
    findBy has name owner = findBy other name owner := by
  unfold findBy
  rw [same]
  cases owner with
  | none => rfl
  | some given =>
      cases asked : given.truthy with
      | true => simp only [inside given rfl asked, asked]
      | false => simp only [asked]; rfl

/-- What a name means depends on the keys of the entries alone. -/
theorem find?_of_has {β : Type} {left : Entries α} {right : Entries β}
    (same : ∀ key, Entries.has key left = Entries.has key right) (name : Value) (owner : Option Value) :
    find? left name owner = find? right name owner := by
  have entry (key : Value) : key.isEntry left = key.isEntry right := by
    cases key with
    | text text => exact congrArg Except.ok (same text)
    | null | bool _ | int _ | float _ | array _ | object _ _ => rfl
  exact findBy_congr (entry name) fun _ _ _ => entry _

/-- What a name means among entries is the name itself or the name in the asking scope. -/
theorem findBy_ok {has : Value → Except Fault Bool} {name : Value} {owner : Option Value}
    {key : Value} (found : findBy has name owner = .ok (some key)) :
    has key = .ok true ∧ (key = name ∨ ∃ given, owner = some given ∧ given.truthy = true ∧
      key = .text (within given.shown name.shown)) := by
  have direct (last : (do if ← has name then return some name else return none :
      Except Fault (Option Value)) = .ok (some key)) : has key = .ok true ∧ key = name := by
    cases asked : has name with
    | error fault =>
        rw [asked] at last
        cases last
    | ok present =>
        rw [asked] at last
        cases present with
        | false => cases last
        | true =>
            cases last
            exact ⟨asked, rfl⟩
  unfold findBy at found
  split at found
  · cases found
  · cases owner with
    | none =>
        obtain ⟨present, same⟩ := direct found
        exact ⟨present, Or.inl same⟩
    | some given =>
        dsimp only at found
        split at found
        · rename_i asked
          cases slashed : (Value.text "/").member name with
          | error fault =>
              rw [slashed] at found
              cases found
          | ok known =>
              rw [slashed] at found
              cases known with
              | true =>
                  obtain ⟨present, same⟩ := direct found
                  exact ⟨present, Or.inl same⟩
              | false =>
                  cases held : has (.text (within given.shown name.shown)) with
                  | error fault =>
                      simp [held, bind, Except.bind] at found
                  | ok present =>
                      cases present with
                      | true =>
                          simp [held, bind, Except.bind, pure, Except.pure] at found
                          subst found
                          exact ⟨held, Or.inr ⟨given, rfl, asked, rfl⟩⟩
                      | false =>
                          simp only [held, ok_bind] at found
                          obtain ⟨present, same⟩ := direct found
                          exact ⟨present, Or.inl same⟩
        · obtain ⟨present, same⟩ := direct found
          exact ⟨present, Or.inl same⟩

theorem truthy_within (scope name : Text) : (Value.text (within scope name)).truthy = true := by
  have given : (scope.codes ++ ("/" : Text).codes ++ name.codes).isEmpty = false := by
    rw [Text.codes_slash, List.append_assoc, List.isEmpty_eq_false_iff]
    exact List.append_ne_nil_of_right_ne_nil _ (List.append_ne_nil_of_left_ne_nil (by decide) _)
  exact congrArg (!·) given

/-- Only what is given means anything. -/
theorem truthy_of_findBy {has : Value → Except Fault Bool} {name : Value} {owner : Option Value}
    {key : Value} (found : findBy has name owner = .ok (some key)) : key.truthy = true := by
  have named : name.truthy = true := by
    unfold findBy at found
    split at found
    · cases found
    · rename_i given
      simpa using given
  rcases (findBy_ok found).2 with rfl | ⟨given, _, _, rfl⟩
  · exact named
  · exact truthy_within ..

/-- A name that is there means something in every scope. -/
theorem findBy_ne_none {has : Value → Except Fault Bool} {name : Value} {owner : Option Value}
    (named : name.truthy = true) (known : has name = .ok true) : findBy has name owner ≠ .ok none := by
  have last : (do
      let found ← has name
      if found = true then return some name else return none : Except Fault (Option Value)) ≠ .ok none := by
    rw [known, ok_bind, if_pos rfl]
    intro impossible
    cases impossible
  intro absent
  unfold findBy at absent
  rw [named] at absent
  dsimp only at absent
  cases owner with
  | none => exact last absent
  | some owner =>
      dsimp only at absent
      rw [if_neg (by decide)] at absent
      split at absent
      · obtain ⟨_, _, absent⟩ := bind_eq_ok.mp absent
        split at absent
        · obtain ⟨_, _, absent⟩ := bind_eq_ok.mp absent
          split at absent
          · cases absent
          · exact last absent
        · exact last absent
      · exact last absent

theorem lookup?_outside {name : Value} (named : NameOutside scope name) (entries : Entries α) :
    name.lookup? (Entries.outside scope entries) = name.lookup? entries := by
  cases name with
  | text text => exact congrArg Except.ok (Entries.get?_outside entries (named text rfl))
  | null | bool _ | int _ | float _ | array _ | object _ _ => rfl

theorem isEntry_outside {name : Value} (named : NameOutside scope name) (entries : Entries α) :
    name.isEntry (Entries.outside scope entries) = name.isEntry entries := by
  unfold Value.isEntry
  rw [lookup?_outside named]

theorem member_outside {name : Value} (named : NameOutside scope name) (container : Value) :
    name.member (container.outside scope) = name.member container := by
  cases container with
  | object mark fields =>
      cases name with
      | text text =>
          exact congrArg Except.ok (congrArg Option.isSome (Entries.get?_outside fields (named text rfl)))
      | null | bool _ | int _ | float _ | array _ | object _ _ => rfl
  | null | bool _ | int _ | float _ | array _ | text _ => rfl

private theorem nameOutside_within (plain : scope.hasSlash = false) {owner : Value}
    (asked : OwnerOutside scope owner) (given : owner.truthy = true) (name : Text) :
    NameOutside scope (.text (within owner.shown name)) := by
  intro text same
  rw [← Value.text.inj same, owns_within plain]
  exact asked given

theorem find?_outside (plain : scope.hasSlash = false) (entries : Entries α) {name : Value}
    {owner : Option Value} (named : NameOutside scope name)
    (asked : ∀ given, owner = some given → OwnerOutside scope given) :
    find? (Entries.outside scope entries) name owner = find? entries name owner :=
  findBy_congr (isEntry_outside named entries) fun given known true? =>
    isEntry_outside (nameOutside_within plain (asked given known) true? _) entries

theorem findIn_outside (plain : scope.hasSlash = false) (container : Value) {name : Value}
    {owner : Option Value} (named : NameOutside scope name)
    (asked : ∀ given, owner = some given → OwnerOutside scope given) :
    findIn (container.outside scope) name owner = findIn container name owner :=
  findBy_congr (member_outside named container) fun given known true? =>
    member_outside (nameOutside_within plain (asked given known) true? _) container

theorem nameOutside_of_findBy (plain : scope.hasSlash = false) {has : Value → Except Fault Bool}
    {name key : Value} {owner : Option Value} (named : NameOutside scope name)
    (asked : ∀ given, owner = some given → OwnerOutside scope given)
    (found : findBy has name owner = .ok (some key)) : NameOutside scope key := by
  obtain ⟨_, same | ⟨given, known, true?, same⟩⟩ := findBy_ok found
  · exact same ▸ named
  · exact same ▸ nameOutside_within plain (asked given known) true? _

end Scope

/-! ### What a name means -/

namespace Scope

variable {α β : Type} {entries : Entries α} {name : Value} {scope : Option Value}

inductive Means (entries : Entries α) (name : Value) (scope : Option Value) : Text → Prop
  | own {owner : Value} (given : name.truthy = true) (asking : scope = some owner) (named : owner.truthy = true)
      (plain : (Value.text "/").member name = .ok false)
      (present : Entries.has (within owner.shown name.shown) entries = true) :
      Means entries name scope (within owner.shown name.shown)
  | itself {key : Text} (given : name.truthy = true) (same : name = .text key)
      (present : Entries.has key entries = true)
      (foreign : ∀ owner, scope = some owner → owner.truthy = true → (Value.text "/").member name = .ok false →
        Entries.has (within owner.shown name.shown) entries = false) :
      Means entries name scope key

theorem Means.given {key : Text} (means : Means entries name scope key) : name.truthy = true := by
  cases means with
  | own given => exact given
  | itself given => exact given

theorem Means.has {key : Text} (means : Means entries name scope key) : Entries.has key entries = true := by
  cases means with
  | own _ _ _ _ present => exact present
  | itself _ _ present => exact present

theorem Means.congr {others : Entries β} {key : Text} (same : ∀ key, Entries.has key others = Entries.has key entries)
    (means : Means entries name scope key) : Means others name scope key := by
  cases means with
  | own given asking named plain present => exact .own given asking named plain ((same _).trans present)
  | itself given shape present foreign =>
      exact .itself given shape ((same _).trans present) fun owner asking named plain =>
        (same _).trans (foreign owner asking named plain)

def direct (entries : Entries α) (name : Value) : Except Fault (Option Value) := do
  if ← name.isEntry entries then return some name else return none

private theorem direct_eq_some {key : Value} (found : direct entries name = .ok (some key)) :
    ∃ text, key = .text text ∧ name = .text text ∧ Entries.has text entries = true := by
  obtain ⟨present, asked, found⟩ := bind_eq_ok.mp found
  cases present with
  | false => cases found
  | true =>
      cases pure_eq_ok.mp found
      cases name with
      | text text => exact ⟨text, rfl, rfl, Except.ok.inj asked⟩
      | null | bool _ | int _ | float _ | array _ | object _ _ => cases asked

theorem direct_of_has {key : Text} (present : Entries.has key entries = true) :
    direct entries (.text key) = .ok (some (.text key)) :=
  bind_eq_ok.mpr ⟨true, congrArg Except.ok present, rfl⟩

/-- A name that is given is looked up in the asking scope first. -/
theorem find?_given (given : name.truthy = true) : find? entries name scope =
    match scope with
    | none => direct entries name
    | some owner => if owner.truthy then do
        if ← (Value.text "/").member name then direct entries name
        else if Entries.has (within owner.shown name.shown) entries then
          return some (.text (within owner.shown name.shown))
        else direct entries name
      else direct entries name := by
  unfold find? findBy
  rw [given]
  cases scope with
  | none => rfl
  | some owner =>
      cases asked : owner.truthy with
      | false => simp only [asked]; rfl
      | true =>
          cases (Value.text "/").member name with
          | error fault => simp [asked, bind, Except.bind]
          | ok known =>
              cases known with
              | true => simp only [asked, ok_bind]; rfl
              | false => simp only [asked, ok_bind]; rfl

theorem find?_eq_some {key : Value} :
    find? entries name scope = .ok (some key) ↔ ∃ text, key = .text text ∧ Means entries name scope text := by
  constructor
  · intro found
    have given : name.truthy = true := by
      cases asked : name.truthy with
      | true => rfl
      | false =>
          rw [find?, findBy, asked] at found
          cases found
    have itself (last : direct entries name = .ok (some key)) (foreign : ∀ owner, scope = some owner →
        owner.truthy = true → (Value.text "/").member name = .ok false →
        Entries.has (within owner.shown name.shown) entries = false) :
        ∃ text, key = .text text ∧ Means entries name scope text := by
      obtain ⟨text, rfl, same, present⟩ := direct_eq_some last
      exact ⟨text, rfl, .itself given same present foreign⟩
    rw [find?_given given] at found
    cases scope with
    | none => exact itself found fun _ impossible => by cases impossible
    | some owner =>
        dsimp only at found
        split at found
        · rename_i named
          obtain ⟨known, slashed, found⟩ := bind_eq_ok.mp found
          split at found
          · rename_i inside
            refine itself found fun _ _ _ plain => ?_
            rw [slashed, inside] at plain
            cases plain
          · rename_i outside
            rw [Bool.not_eq_true] at outside
            split at found
            · rename_i present
              cases found
              exact ⟨_, rfl, .own given rfl named (slashed.trans (congrArg _ outside)) present⟩
            · rename_i absent
              rw [Bool.not_eq_true] at absent
              exact itself found fun _ same _ _ => Option.some.inj same ▸ absent
        · rename_i unnamed
          exact itself found fun _ same named => absurd (Option.some.inj same ▸ named) unnamed
  · rintro ⟨text, rfl, means⟩
    cases means with
    | @own owner given asking named plain present =>
        rw [find?_given given, asking]
        simp only [named, plain, ok_bind, present]
        rfl
    | itself given same present foreign =>
        have last : direct entries name = .ok (some (.text text)) := same ▸ direct_of_has present
        rw [find?_given given]
        cases scope with
        | none => exact last
        | some owner =>
            dsimp only
            split
            · rename_i named
              obtain ⟨known, slashed⟩ : ∃ known, (Value.text "/").member name = .ok known := same ▸ ⟨_, rfl⟩
              rw [slashed, ok_bind, last]
              cases known with
              | true => rfl
              | false => rw [foreign owner rfl named slashed]; rfl
            · exact last

theorem Means.unique {key other : Text} (means : Means entries name scope key)
    (also : Means entries name scope other) : key = other := by
  have found := find?_eq_some.mpr ⟨key, rfl, means⟩
  have found' := find?_eq_some.mpr ⟨other, rfl, also⟩
  exact Value.text.inj (Option.some.inj (Except.ok.inj (found.symm.trans found')))

/-- Among the members of an object a name is looked up as among its entries. -/
theorem findIn_object (mark : Option Nat) (fields : Fields) (name : Value) (scope : Option Value) :
    findIn (.object mark fields) name scope = find? fields name scope := by
  have same (key : Value) : key.member (.object mark fields) = key.isEntry fields := by
    cases key with
    | text _ => rfl
    | null | bool _ | int _ | float _ | array _ | object _ _ => rfl
  exact findBy_congr (same name) fun _ _ _ => same _

end Scope

end EventSchema
