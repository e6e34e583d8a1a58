import EventSchema.Proofs.Value.Written

/-!
Combining sources in the order of their priority.

Several objects are combined key by key. The first one that has a key decides: if it holds no object
there, that is the value, and if it holds an object, the objects that any of the sources hold there are
combined in turn. What a combination comes to is told path by path, so it needs no order of keys.
Merging each source under what the sources before it have come to gives the combination, although
merging in another grouping would not: a value that is no object stops the sources behind it from
deciding, but does not hide the objects that they hold.
-/

set_option autoImplicit false

namespace EventSchema.Value

inductive Spot where
  | nothing
  | object
  | leaf (value : Value)

def spotAt (fields : Fields) : List Text → Spot
  | [] => .object
  | key :: path => match Entries.get? key fields with
    | none => .nothing
    | some (object _ inner) => spotAt inner path
    | some value => if path.isEmpty then .leaf value else .nothing

def objectsAmong (values : List Value) : List Fields :=
  values.filterMap fun
    | object _ fields => some fields
    | _ => none

def heldUnder (key : Text) (sources : List Fields) : List Value := sources.filterMap (Entries.get? key)

def prioritySpot (sources : List Fields) : List Text → Spot
  | [] => .object
  | key :: path => match heldUnder key sources with
    | [] => .nothing
    | object mark inner :: later => prioritySpot (objectsAmong (object mark inner :: later)) path
    | value :: _ => if path.isEmpty then .leaf value else .nothing

def Combines (sources : List Fields) (fields : Fields) : Prop :=
  ∀ path, spotAt fields path = prioritySpot sources path

/-! ### The first source that has a key -/

theorem heldUnder_append (key : Text) (first second : List Fields) :
    heldUnder key (first ++ second) = heldUnder key first ++ heldUnder key second :=
  List.filterMap_append

theorem objectsAmong_append (first second : List Value) :
    objectsAmong (first ++ second) = objectsAmong first ++ objectsAmong second :=
  List.filterMap_append

theorem prioritySpot_of_nil {key : Text} {sources : List Fields} (absent : heldUnder key sources = [])
    (path : List Text) : prioritySpot sources (key :: path) = .nothing := by
  rw [prioritySpot, absent]

theorem prioritySpot_of_object {key : Text} {sources : List Fields} {mark : Option Nat}
    {inner : Fields} {later : List Value}
    (held : heldUnder key sources = .object mark inner :: later) (path : List Text) :
    prioritySpot sources (key :: path) = prioritySpot (inner :: objectsAmong later) path := by
  rw [prioritySpot, held]
  rfl

theorem prioritySpot_of_leaf {key : Text} {sources : List Fields} {value : Value}
    {later : List Value} (held : heldUnder key sources = value :: later)
    (shape : value.isObject = false) (path : List Text) :
    prioritySpot sources (key :: path) = if path.isEmpty then .leaf value else .nothing := by
  rw [prioritySpot, held]
  cases value with
  | object mark fields => cases shape
  | null | bool _ | int _ | float _ | text _ | array _ => rfl

theorem object_or (value : Value) :
    (∃ mark fields, value = .object mark fields) ∨ value.isObject = false := by
  cases value with
  | object mark fields => exact Or.inl ⟨mark, fields, rfl⟩
  | null | bool _ | int _ | float _ | text _ | array _ => exact Or.inr rfl

/-- Sources that agree on what stands under a key agree on which of them decides. -/
theorem heldUnder_cases {key : Text} {first second : List Fields}
    (same : prioritySpot first [key] = prioritySpot second [key]) :
    (heldUnder key first = [] ∧ heldUnder key second = []) ∨
    (∃ mark inner later mark' inner' later', heldUnder key first = .object mark inner :: later ∧
      heldUnder key second = .object mark' inner' :: later') ∨
    ∃ value later later', value.isObject = false ∧ heldUnder key first = value :: later ∧
      heldUnder key second = value :: later' := by
  cases held : heldUnder key first with
  | nil =>
      rw [prioritySpot_of_nil held] at same
      cases held' : heldUnder key second with
      | nil => exact Or.inl ⟨rfl, rfl⟩
      | cons value later =>
          rcases object_or value with ⟨mark, inner, rfl⟩ | shape
          · rw [prioritySpot_of_object held'] at same
            cases same
          · rw [prioritySpot_of_leaf held' shape] at same
            cases same
  | cons value later =>
      cases held' : heldUnder key second with
      | nil =>
          rw [prioritySpot_of_nil held'] at same
          rcases object_or value with ⟨mark, inner, rfl⟩ | shape
          · rw [prioritySpot_of_object held] at same
            cases same
          · rw [prioritySpot_of_leaf held shape] at same
            cases same
      | cons value' later' =>
          rcases object_or value with ⟨mark, inner, rfl⟩ | shape
          · rw [prioritySpot_of_object held] at same
            rcases object_or value' with ⟨mark', inner', rfl⟩ | shape'
            · exact Or.inr (Or.inl ⟨mark, inner, later, mark', inner', later', rfl, rfl⟩)
            · rw [prioritySpot_of_leaf held' shape'] at same
              cases same
          · rw [prioritySpot_of_leaf held shape] at same
            rcases object_or value' with ⟨mark', inner', rfl⟩ | shape'
            · rw [prioritySpot_of_object held'] at same
              cases same
            · rw [prioritySpot_of_leaf held' shape'] at same
              cases same
              exact Or.inr (Or.inr ⟨value, later, later', shape, rfl, rfl⟩)

/-- What comes behind some sources sees only what they come to. -/
theorem prioritySpot_append {first second : List Fields}
    (same : ∀ path, prioritySpot first path = prioritySpot second path) (others : List Fields)
    (path : List Text) :
    prioritySpot (first ++ others) path = prioritySpot (second ++ others) path := by
  induction path generalizing first second others with
  | nil => rfl
  | cons key path ih =>
      have split (sources : List Fields) := heldUnder_append key sources others
      rcases heldUnder_cases (same [key]) with ⟨held, held'⟩ |
        ⟨mark, inner, later, mark', inner', later', held, held'⟩ |
        ⟨value, later, later', shape, held, held'⟩
      · rw [prioritySpot, prioritySpot, split, split, held, held']
      · have deeper (path : List Text) : prioritySpot (inner :: objectsAmong later) path =
            prioritySpot (inner' :: objectsAmong later') path := by
          rw [← prioritySpot_of_object held, ← prioritySpot_of_object held', same]
        rw [prioritySpot_of_object (by rw [split, held, List.cons_append]),
          prioritySpot_of_object (by rw [split, held', List.cons_append]), objectsAmong_append,
          objectsAmong_append, ← List.cons_append, ← List.cons_append]
        exact ih deeper _
      · rw [prioritySpot_of_leaf (by rw [split, held, List.cons_append]) shape,
          prioritySpot_of_leaf (by rw [split, held', List.cons_append]) shape]

/-- Fields are a source that decides alone. -/
theorem spotAt_eq (fields : Fields) (path : List Text) :
    spotAt fields path = prioritySpot [fields] path := by
  induction path generalizing fields with
  | nil => rfl
  | cons key path ih =>
      rw [spotAt, prioritySpot, heldUnder, List.filterMap_cons]
      cases Entries.get? key fields with
      | none => rfl
      | some value =>
          rcases object_or value with ⟨mark, inner, rfl⟩ | shape
          · exact ih inner
          · cases value with
            | object mark inner => cases shape
            | null | bool _ | int _ | float _ | text _ | array _ => rfl

/-! ### Merging -/

theorem prioritySpot_mergeFields {dest source : Fields} (written : Written (.record source))
    (path : List Text) : prioritySpot [mergeFields dest source] path = prioritySpot [source, dest] path := by
  induction path generalizing dest source with
  | nil => rfl
  | cons key path ih =>
      have merged := get?_mergeFields key dest written.distinct
      have single (fields : Fields) : heldUnder key [fields] = (Entries.get? key fields).toList := by
        rw [heldUnder, List.filterMap_cons]
        cases Entries.get? key fields <;> rfl
      have pair : heldUnder key [source, dest] =
          (Entries.get? key source).toList ++ (Entries.get? key dest).toList := by
        rw [← single, ← single, ← heldUnder_append]
        rfl
      cases given : Entries.get? key source with
      | none =>
          rw [given] at merged pair
          rw [prioritySpot, prioritySpot, single, merged, pair]
          rfl
      | some value =>
          rw [given] at merged pair
          cases old : Entries.get? key dest with
          | none =>
              rw [old] at merged pair
              rw [prioritySpot, prioritySpot, single, merged, pair]
              rfl
          | some before =>
              rw [old] at merged pair
              dsimp only at merged
              rcases object_or value with ⟨mark, inner, rfl⟩ | shape
              · rcases object_or before with ⟨own, base, rfl⟩ | apart
                · rw [merge_object] at merged
                  have inside := (written_object.mp (written.of_get? given)).2
                  rw [prioritySpot_of_object (by rw [single, merged]; rfl),
                    prioritySpot_of_object (by rw [pair]; rfl)]
                  exact ih inside
                · rw [merge_apart (Or.inl apart)] at merged
                  rw [prioritySpot_of_object (by rw [single, merged]; rfl),
                    prioritySpot_of_object (by rw [pair]; rfl)]
                  cases before with
                  | object own base => cases apart
                  | null | bool _ | int _ | float _ | text _ | array _ => rfl
              · rw [merge_apart (Or.inr shape)] at merged
                rw [prioritySpot_of_leaf (by rw [single, merged]; rfl) shape,
                  prioritySpot_of_leaf (by rw [pair]; rfl) shape]

def mergeUnderEach (first : Fields) (sources : List Fields) : Fields :=
  sources.foldl (fun merged source => mergeFields source merged) first

theorem written_mergeUnderEach {first : Fields} {sources : List Fields}
    (written : Written (.record first)) (each : ∀ source ∈ sources, Written (.record source)) :
    Written (.record (mergeUnderEach first sources)) := by
  induction sources generalizing first with
  | nil => exact written
  | cons source later ih =>
      obtain ⟨own, others⟩ := List.forall_mem_cons.mp each
      exact ih (own.mergeFields written) others

theorem combines_mergeUnderEach {first : Fields} {sources : List Fields}
    (written : Written (.record first)) (each : ∀ source ∈ sources, Written (.record source)) :
    Combines (first :: sources) (mergeUnderEach first sources) := by
  intro path
  rw [spotAt_eq]
  induction sources generalizing first path with
  | nil => rfl
  | cons source later ih =>
      obtain ⟨own, others⟩ := List.forall_mem_cons.mp each
      have rest := ih (own.mergeFields written) others path
      have front (path : List Text) : prioritySpot [mergeFields source first] path =
          prioritySpot [first, source] path := prioritySpot_mergeFields written path
      exact rest.trans (prioritySpot_append front later path)

end EventSchema.Value
