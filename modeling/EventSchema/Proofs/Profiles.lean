import EventSchema.Proofs.Outcome
import EventSchema.Proofs.Value.Same
import EventSchema.Record.Entity
import EventSchema.Value.Access

/-!
Lists without repeats.

Joining lists leaves no two items that are the same, and a list without repeats is joined as it is, so
joining twice is joining once. Lists of texts stay lists of texts.
-/

set_option autoImplicit false

namespace EventSchema

namespace Value

def Apart (items : List Value) : Prop := items.Pairwise fun first later => same first later = false

theorem isIn_iff {value : Value} {items : List Value} :
    value.isIn items = true ↔ ∃ item ∈ items, same item value = true := by
  rw [isIn, List.any_eq_true]

theorem addNew_nil (merged : List Value) : addNew merged [] = merged := rfl

theorem addNew_cons (merged : List Value) (item : Value) (items : List Value) :
    addNew merged (item :: items) =
      addNew (if item.isIn merged then merged else merged ++ [item]) items := rfl

theorem addNew_append (merged left right : List Value) :
    addNew merged (left ++ right) = addNew (addNew merged left) right := by
  rw [addNew, addNew, addNew, List.foldl_append]

theorem addNew_ne_nil {merged items : List Value} (given : merged ≠ []) :
    addNew merged items ≠ [] := by
  induction items generalizing merged with
  | nil => exact given
  | cons item rest ih =>
      rw [addNew_cons]
      apply ih
      split
      · exact given
      · simp

theorem Apart.addNew {merged : List Value} (apart : Apart merged) (items : List Value) :
    Apart (addNew merged items) := by
  induction items generalizing merged with
  | nil => exact apart
  | cons item rest ih =>
      rw [addNew_cons]
      apply ih
      by_cases known : item.isIn merged = true
      · rw [if_pos known]
        exact apart
      · rw [if_neg known]
        refine List.pairwise_append.mpr ⟨apart, List.pairwise_singleton .., ?_⟩
        intro first before later single
        rw [List.mem_singleton.mp single, ← Bool.not_eq_true]
        exact fun equal => known (isIn_iff.mpr ⟨first, before, equal⟩)

theorem addNew_of_apart {merged items : List Value} (apart : Apart (merged ++ items)) :
    addNew merged items = merged ++ items := by
  induction items generalizing merged with
  | nil => rw [addNew_nil, List.append_nil]
  | cons item rest ih =>
      have fresh : ¬item.isIn merged = true := by
        rw [isIn_iff]
        rintro ⟨first, before, equal⟩
        have different := (List.pairwise_append.mp apart).2.2 first before item
          (List.mem_cons_self ..)
        rw [equal] at different
        cases different
      rw [addNew_cons, if_neg fresh, ih (by rw [List.append_assoc]; exact apart),
        List.append_assoc, List.singleton_append]

theorem addNew_addNew (items more : List Value) :
    addNew [] (addNew [] items ++ more) = addNew [] (items ++ more) := by
  have apart : Apart ([] ++ addNew [] items) := Apart.addNew List.Pairwise.nil items
  rw [addNew_append, addNew_of_apart apart, List.nil_append, ← addNew_append]

theorem prefix_addNew (merged items : List Value) : merged <+: addNew merged items := by
  induction items generalizing merged with
  | nil => exact List.prefix_rfl
  | cons item rest ih =>
      rw [addNew_cons]
      split
      · exact ih merged
      · exact (List.prefix_append merged [item]).trans (ih _)

theorem mem_of_mem_addNew {merged items : List Value} {value : Value}
    (member : value ∈ addNew merged items) : value ∈ merged ∨ value ∈ items := by
  induction items generalizing merged with
  | nil => exact Or.inl member
  | cons item rest ih =>
      rw [addNew_cons] at member
      rcases ih member with before | later
      · by_cases known : item.isIn merged = true
        · rw [if_pos known] at before
          exact Or.inl before
        · rw [if_neg known] at before
          rcases List.mem_append.mp before with old | single
          · exact Or.inl old
          · exact Or.inr (List.mem_singleton.mp single ▸ List.mem_cons_self ..)
      · exact Or.inr (List.mem_cons_of_mem _ later)

private theorem mem_addNew_of_mem {merged : List Value} {value : Value} (known : value ∈ merged)
    (items : List Value) : value ∈ addNew merged items := by
  induction items generalizing merged with
  | nil => exact known
  | cons item rest ih =>
      rw [addNew_cons]
      apply ih
      split
      · exact known
      · exact List.mem_append_left _ known

def Held (value : Value) (items : List Value) : Prop :=
  ∃ item ∈ items, Relation.ReflTransGen (fun first later => same first later = true) item value

theorem held_of_mem {value : Value} {items : List Value} (member : value ∈ items) :
    Held value items := ⟨value, member, .refl⟩

theorem Held.trans {value : Value} {items others : List Value} (held : Held value items)
    (all : ∀ item ∈ items, Held item others) : Held value others := by
  obtain ⟨item, member, later⟩ := held
  obtain ⟨first, known, earlier⟩ := all item member
  exact ⟨first, known, earlier.trans later⟩

/-- Joined lists hold everything that was in one of them. -/
theorem held_addNew {merged items : List Value} {value : Value}
    (member : value ∈ merged ∨ value ∈ items) : Held value (addNew merged items) := by
  rcases member with before | later
  · exact held_of_mem (mem_addNew_of_mem before items)
  · induction items generalizing merged with
    | nil => cases later
    | cons item rest ih =>
        rw [addNew_cons]
        rcases List.mem_cons.mp later with here | there
        · by_cases known : item.isIn merged = true
          · rw [if_pos known, here]
            obtain ⟨first, before, equal⟩ := isIn_iff.mp known
            exact ⟨first, mem_addNew_of_mem before rest, .single equal⟩
          · rw [if_neg known, here]
            exact held_of_mem (mem_addNew_of_mem (List.mem_append_right _ (by simp)) rest)
        · exact ih there

theorem Held.of_same {value other : Value} {items : List Value} (held : Held value items)
    (equal : same value other = true) : Held other items := by
  obtain ⟨item, member, chain⟩ := held
  exact ⟨item, member, chain.tail equal⟩

/-- A list of values without parts has whatever it holds as a member. -/
theorem Held.isIn {value : Value} {items : List Value} (held : Held value items)
    (keys : ∀ item ∈ items, item.isKey = true) : value.isIn items = true := by
  obtain ⟨item, member, chain⟩ := held
  exact isIn_iff.mpr ⟨item, member, same_of_chain (keys item member) chain⟩

end Value

/-! ### Lists joined -/

private theorem mergeProfiles_eq (lists : List (Option Value)) :
    mergeProfiles lists =
      lists.foldlM (fun merged profiles => Value.addNew merged <$> Value.itemsOrNone profiles) [] := by
  unfold mergeProfiles
  congr 1
  funext merged profiles
  cases profiles with
  | none => rfl
  | some profiles =>
      unfold Value.itemsOrNone Value.orElse
      by_cases given : profiles.truthy = true
      · simp only [given, if_true, map_eq_pure_bind]
      · simp only [given]
        rfl

theorem mergeProfiles_eq_ok {lists : List (Option Value)} {merged : List Value} :
    mergeProfiles lists = .ok merged ↔
      ∃ contents, lists.mapM Value.itemsOrNone = .ok contents ∧
        merged = Value.addNew [] contents.flatten := by
  rw [mergeProfiles_eq]
  generalize ([] : List Value) = start
  induction lists generalizing start with
  | nil =>
      rw [List.foldlM_nil, List.mapM_nil, pure_eq_ok]
      constructor
      · rintro rfl
        exact ⟨[], rfl, rfl⟩
      · rintro ⟨contents, none, same⟩
        rw [pure_eq_ok] at none
        subst none
        exact same.symm
  | cons head rest ih =>
      rw [List.foldlM_cons, List.mapM_cons, bind_eq_ok]
      constructor
      · rintro ⟨middle, first, later⟩
        obtain ⟨items, listed, same⟩ := map_eq_ok.mp first
        obtain ⟨contents, others, told⟩ := (ih middle).mp later
        refine ⟨items :: contents, ?_, ?_⟩
        · exact bind_eq_ok.mpr ⟨items, listed, bind_eq_ok.mpr ⟨contents, others, rfl⟩⟩
        · rw [told, ← same, List.flatten_cons, Value.addNew_append]
      · rintro ⟨contents, listed, told⟩
        obtain ⟨items, one, listed⟩ := bind_eq_ok.mp listed
        obtain ⟨others, later, same⟩ := bind_eq_ok.mp listed
        rw [pure_eq_ok] at same
        subst same
        rw [List.flatten_cons, Value.addNew_append] at told
        exact ⟨_, map_eq_ok.mpr ⟨items, one, rfl⟩, (ih _).mpr ⟨others, later, told⟩⟩

def Entries.profiles (item : Fields) : List Value :=
  match Value.itemsOrNone (get? "profiles" item) with
  | .ok profiles => profiles
  | .error _ => []

theorem Value.itemsOrNone_array (items : List Value) : Value.itemsOrNone (some (.array items)) = .ok items := by
  cases items <;> rfl

theorem Entries.profiles_of_ok {item : Fields} {profiles : List Value}
    (listed : Value.itemsOrNone (get? "profiles" item) = .ok profiles) : Entries.profiles item = profiles := by
  rw [Entries.profiles, listed]

theorem Entries.profiles_put (profiles : List Value) (item : Fields) :
    Entries.profiles (Entries.put "profiles" (.array profiles) item) = profiles := by
  refine Entries.profiles_of_ok ?_
  rw [Entries.get?_put_self, Value.itemsOrNone_array]

def listed : Option Value → List Value
  | some (.array items) => items
  | _ => []

def TextList (value : Option Value) : Prop :=
  ∀ given, value = some given → ∃ texts : List Text, given = .array (texts.map .text)

theorem TextList.none : TextList none := by
  intro given impossible
  cases impossible

theorem textList_array {items : List Value}
    (texts : ∀ value ∈ items, ∃ text : Text, value = .text text) : TextList (some (.array items)) := by
  rintro _ ⟨⟩
  induction items with
  | nil => exact ⟨[], rfl⟩
  | cons item rest ih =>
      obtain ⟨text, same⟩ := texts item (List.mem_cons_self ..)
      obtain ⟨others, rest'⟩ := ih fun value member => texts value (List.mem_cons_of_mem _ member)
      rw [Value.array.injEq] at rest'
      exact ⟨text :: others, by rw [same, rest', List.map_cons]⟩

theorem TextList.text_of_mem {value : Option Value} (texts : TextList value) {item : Value}
    (member : item ∈ listed value) : ∃ text : Text, item = .text text := by
  cases value with
  | none => cases member
  | some given =>
      obtain ⟨names, same⟩ := texts given rfl
      subst same
      obtain ⟨text, _, itself⟩ := List.mem_map.mp member
      exact ⟨text, itself.symm⟩

theorem TextList.itemsOrNone {value : Option Value} (texts : TextList value) :
    Value.itemsOrNone value = .ok (listed value) := by
  cases value with
  | none => rfl
  | some given =>
      obtain ⟨names, same⟩ := texts given rfl
      subst same
      exact Value.itemsOrNone_array _

theorem mergeProfiles_ok {lists : List (Option Value)} (texts : ∀ list ∈ lists, TextList list) :
    mergeProfiles lists = .ok (Value.addNew [] (lists.flatMap listed)) := by
  refine mergeProfiles_eq_ok.mpr ⟨lists.map listed, mapM_eq_ok.mpr ?_, ?_⟩
  · refine List.forall₂_map_right_iff.mpr (List.forall₂_same.mpr ?_)
    exact fun list member => (texts list member).itemsOrNone
  · rw [List.flatMap_def]

end EventSchema
