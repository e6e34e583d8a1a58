import EventSchema.Proofs.Value.Priority

/-!
The laws of merging.

A merge leaves the keys of the destination in their places and puts the new ones of the source behind
them. Under a key that both sides hold an object under it merges the two, and under any other key it says
what the source says, or else the destination. So merging the same source again changes nothing.

Merging one object after another may be regrouped, unless somewhere a value that is no object comes
between two objects. Merged over the first one it takes its place, so that the last one is taken as it
is; but if the last one is merged over it first, the value is gone before it meets the first one.
-/

set_option autoImplicit false

namespace EventSchema.Value

/-! ### Keys -/

theorem mergeFields_apart {done fields : Fields} (distinct : Entries.Distinct fields)
    (apart : ∀ key ∈ Entries.keys fields, key ∉ Entries.keys done) :
    mergeFields done fields = done ++ fields := by
  induction fields generalizing done with
  | nil => rw [mergeFields, List.append_nil]
  | cons head rest ih =>
      obtain ⟨key, value⟩ := head
      obtain ⟨fresh, others⟩ := List.nodup_cons.mp distinct
      obtain ⟨own, later⟩ := List.forall_mem_cons.mp apart
      have added := Entries.put_append_of_absent own value []
      rw [List.append_nil] at added
      rw [mergeFields, Entries.get?_eq_none_iff.mpr own]
      dsimp only
      rw [added, Entries.put, ih others, List.append_assoc, List.singleton_append]
      intro other member known
      rw [Entries.keys, List.map_append, List.mem_append] at known
      rcases known with before | here
      · exact later other member before
      · exact fresh (List.mem_singleton.mp here ▸ member)

theorem mergeFields_nil_left {fields : Fields} (distinct : Entries.Distinct fields) :
    mergeFields [] fields = fields :=
  mergeFields_apart distinct fun _ _ impossible => by cases impossible

theorem keys_mergeFields (dest : Fields) {source : Fields} (distinct : Entries.Distinct source) :
    Entries.keys (mergeFields dest source) =
      Entries.keys dest ++ (Entries.keys source).filter (· ∉ Entries.keys dest) := by
  induction source generalizing dest with
  | nil =>
      rw [mergeFields]
      exact (List.append_nil _).symm
  | cons head rest ih =>
      obtain ⟨key, value⟩ := head
      obtain ⟨fresh, others⟩ := List.nodup_cons.mp distinct
      have first : Entries.keys ((key, value) :: rest) = key :: Entries.keys rest := rfl
      rw [mergeFields, ih _ others, Entries.keys_put, first]
      by_cases known : key ∈ Entries.keys dest
      · rw [if_pos (Entries.has_iff_mem_keys.mpr known), List.filter_cons_of_neg (by simpa using known)]
      · have rest_apart : (Entries.keys rest).filter (· ∉ Entries.keys dest ++ [key]) =
            (Entries.keys rest).filter (· ∉ Entries.keys dest) := by
          refine List.filter_congr fun other member => ?_
          have different : other ≠ key := fun same => fresh (same ▸ member)
          simp [different]
        rw [if_neg fun present => known (Entries.has_iff_mem_keys.mp present), rest_apart,
          List.filter_cons_of_pos (by simpa using known), List.append_assoc, List.singleton_append]

theorem sizeOf_of_get? {key : Text} {value : Value} {fields : Fields}
    (found : Entries.get? key fields = some value) : sizeOf value < sizeOf fields := by
  have bound := List.sizeOf_lt_of_mem (Entries.mem_of_get? found)
  rw [Prod.mk.sizeOf_spec] at bound
  omega

/-! ### Merging again -/

mutual
/-- A source that was merged already changes nothing. -/
theorem merge_again : (dest source : Value) → Written dest → Written source →
    merge (merge dest source) source = merge dest source
  | dest, .object mark fields, whole, given => by
      have inside := (written_object.mp given).2
      rcases object_or dest with ⟨own, base, rfl⟩ | apart
      · rw [merge_object, merge_object, mergeFields_again base fields (written_object.mp whole).2 inside]
      · have itself := mergeFields_again [] fields written_nil inside
        rw [mergeFields_nil_left inside.distinct] at itself
        rw [merge_apart (Or.inl apart), merge_object, itself]
  | dest, .null, _, _ | dest, .bool _, _, _ | dest, .int _, _, _ | dest, .float _, _, _
  | dest, .text _, _, _ | dest, .array _, _, _ => by
      rw [merge_apart (Or.inr rfl), merge_apart (Or.inr rfl)]
termination_by _ source => sizeOf source
theorem mergeFields_again (dest source : Fields) (whole : Written (.record dest))
    (given : Written (.record source)) :
    mergeFields (mergeFields dest source) source = mergeFields dest source := by
  have merged := whole.mergeFields given
  refine Entries.eq_of_get? ?_ (merged.mergeFields given).distinct fun key => ?_
  · rw [keys_mergeFields _ given.distinct, List.filter_eq_nil_iff.mpr, List.append_nil]
    intro key member
    rw [decide_eq_true_eq, not_not]
    by_contra absent
    have nowhere := get?_mergeFields_eq_none.mp (Entries.get?_eq_none_iff.mpr absent)
    exact Entries.get?_eq_none_iff.mp nowhere.2 member
  · rw [get?_mergeFields key _ given.distinct, get?_mergeFields key _ given.distinct]
    cases held : Entries.get? key source with
    | none => rfl
    | some value =>
        have own := given.of_get? held
        have smaller : sizeOf value < sizeOf source := sizeOf_of_get? held
        cases found : Entries.get? key dest with
        | none =>
            have nothing : merge .null value = value := merge_apart (Or.inl rfl)
            have itself := merge_again .null value (written_of_not_object rfl) own
            rw [nothing] at itself
            exact congrArg some itself
        | some old => exact congrArg some (merge_again old value (whole.of_get? found) own)
termination_by sizeOf source
end

/-! ### Regrouping -/

structure Hides (first middle last : Fields) (path : List Text) : Prop where
  way : ∀ above, above <+: path → above ≠ path →
    spotAt first above = .object ∧ spotAt middle above = .object ∧ spotAt last above = .object
  outer : spotAt first path = .object
  leaf : ∃ value, spotAt middle path = .leaf value
  inner : spotAt last path = .object

theorem spotAt_object {key : Text} {mark : Option Nat} {inner fields : Fields}
    (found : Entries.get? key fields = some (.object mark inner)) (path : List Text) :
    spotAt fields (key :: path) = spotAt inner path := by rw [spotAt, found]

theorem spotAt_leaf {key : Text} {value : Value} {fields : Fields}
    (found : Entries.get? key fields = some value) (shape : value.isObject = false) (path : List Text) :
    spotAt fields (key :: path) = if path.isEmpty then .leaf value else .nothing := by
  rw [spotAt, found]
  cases value with
  | object mark fields => cases shape
  | null | bool _ | int _ | float _ | text _ | array _ => rfl

theorem Hides.under {first middle last one two three : Fields} {key : Text} {own mark other : Option Nat}
    (inFirst : Entries.get? key first = some (.object own one))
    (inMiddle : Entries.get? key middle = some (.object mark two))
    (inLast : Entries.get? key last = some (.object other three)) {path : List Text}
    (hides : Hides one two three path) : Hides first middle last (key :: path) where
  way := by
    intro above front shorter
    cases above with
    | nil => exact ⟨rfl, rfl, rfl⟩
    | cons name rest =>
        obtain ⟨same, inside⟩ := List.cons_prefix_cons.mp front
        subst same
        rw [spotAt_object inFirst, spotAt_object inMiddle, spotAt_object inLast]
        exact hides.way rest inside fun same => shorter (congrArg _ same)
  outer := (spotAt_object inFirst path).trans hides.outer
  leaf := by
    obtain ⟨value, found⟩ := hides.leaf
    exact ⟨value, (spotAt_object inMiddle path).trans found⟩
  inner := (spotAt_object inLast path).trans hides.inner

theorem hides_here {first middle last one three : Fields} {key : Text} {own other : Option Nat} {value : Value}
    (inFirst : Entries.get? key first = some (.object own one))
    (inMiddle : Entries.get? key middle = some value) (shape : value.isObject = false)
    (inLast : Entries.get? key last = some (.object other three)) : Hides first middle last [key] where
  way := by
    intro above front shorter
    rcases List.prefix_cons_iff.mp front with rfl | ⟨rest, rfl, nothing⟩
    · exact ⟨rfl, rfl, rfl⟩
    · rw [List.prefix_nil.mp nothing] at shorter
      exact absurd rfl shorter
  outer := spotAt_object inFirst []
  leaf := ⟨value, spotAt_leaf inMiddle shape []⟩
  inner := spotAt_object inLast []

/-- Merges can be regrouped where nothing is hidden. -/
theorem mergeFields_assoc (first middle last : Fields) (whole : Written (.record first))
    (given : Written (.record middle)) (more : Written (.record last))
    (open_ : ∀ path, ¬Hides first middle last path) :
    mergeFields (mergeFields first middle) last = mergeFields first (mergeFields middle last) := by
  have later := given.mergeFields more
  refine Entries.eq_of_get? ?_ ((whole.mergeFields given).mergeFields more).distinct fun key => ?_
  · rw [keys_mergeFields _ more.distinct, keys_mergeFields _ given.distinct, keys_mergeFields _ later.distinct,
      keys_mergeFields _ more.distinct, List.filter_append, List.append_assoc, List.filter_filter]
    congr 2
    refine List.filter_congr fun key _ => ?_
    simp only [List.mem_append, List.mem_filter, decide_not]
    by_cases inFirst : key ∈ Entries.keys first <;> simp [inFirst]
  · rw [get?_mergeFields key _ more.distinct, get?_mergeFields key _ given.distinct,
      get?_mergeFields key _ later.distinct, get?_mergeFields key _ more.distinct]
    cases inFirst : Entries.get? key first with
    | none => cases Entries.get? key middle <;> cases Entries.get? key last <;> rfl
    | some one =>
        cases inMiddle : Entries.get? key middle with
        | none => cases Entries.get? key last <;> rfl
        | some two =>
            cases inLast : Entries.get? key last with
            | none => rfl
            | some three =>
                refine congrArg some ?_
                -- only three objects go on to be merged, and an object between objects is never hidden
                rcases object_or three with ⟨other, three, rfl⟩ | leaf
                · rcases object_or two with ⟨mark, two, rfl⟩ | leaf
                  · rcases object_or one with ⟨own, one, rfl⟩ | leaf
                    · have smaller : sizeOf one < sizeOf first := by
                        have bound := sizeOf_of_get? inFirst
                        rw [object.sizeOf_spec] at bound
                        omega
                      have inside := mergeFields_assoc one two three (written_object.mp (whole.of_get? inFirst)).2
                        (written_object.mp (given.of_get? inMiddle)).2 (written_object.mp (more.of_get? inLast)).2
                        fun path hides => open_ _ (hides.under inFirst inMiddle inLast)
                      rw [merge_object, merge_object, merge_object, merge_object, inside]
                    · rw [merge_object, merge_apart (Or.inl leaf), merge_apart (Or.inl leaf), merge_object]
                  · rcases object_or one with ⟨own, one, rfl⟩ | apart
                    · exact absurd (hides_here inFirst inMiddle leaf inLast) (open_ [key])
                    · rw [merge_apart (Or.inr leaf), merge_apart (Or.inl leaf), merge_apart (Or.inl apart)]
                · rw [merge_apart (Or.inr leaf), merge_apart (Or.inr leaf), merge_apart (Or.inr leaf)]
termination_by sizeOf first

/-! ### The laws together -/

/-- What a merge says under a key that the sides hold these values under. -/
def mergedUnder (old given : Option Value) : Option Value :=
  match old, given with
  | some (.object own fields), some (.object mark source) =>
    some (mergeInto (.object own fields) (.object mark source))
  | old, none => old
  | _, some value => some value

theorem mergedUnder_eq (old given : Option Value) : mergedUnder old given =
    match given, old with
    | none, old => old
    | some value, none => some value
    | some value, some old => some (merge old value) := by
  cases given with
  | none => cases old with
    | none => rfl
    | some old => cases old <;> rfl
  | some value =>
      cases old with
      | none => rfl
      | some old =>
          rcases object_or old with ⟨own, fields, rfl⟩ | apart
          · rcases object_or value with ⟨mark, source, rfl⟩ | leaf
            · rfl
            · change _ = some (merge (.object own fields) value)
              rw [merge_apart (Or.inr leaf)]
              cases value with
              | object mark fields => cases leaf
              | null | bool _ | int _ | float _ | text _ | array _ => rfl
          · change _ = some (merge old value)
            rw [merge_apart (Or.inl apart)]
            cases old with
            | object own fields => cases apart
            | null | bool _ | int _ | float _ | text _ | array _ => rfl

/-- The laws of merging objects that share nothing: which keys a merge has and in which order, what it says
under each of them, that merging again changes nothing, and when merges can be regrouped. -/
theorem mergeInto_laws {first middle last : Fields} (whole : Written (.record first))
    (given : Written (.record middle)) (more : Written (.record last)) :
    (∃ merged, mergeInto (.record first) (.record middle) = .record merged ∧
      Entries.keys merged =
        Entries.keys first ++ (Entries.keys middle).filter (· ∉ Entries.keys first) ∧
      ∀ key, Entries.get? key merged = mergedUnder (Entries.get? key first) (Entries.get? key middle)) ∧
    mergeInto (mergeInto (.record first) (.record middle)) (.record middle) =
      mergeInto (.record first) (.record middle) ∧
    ((∀ path, ¬Hides first middle last path) →
      mergeInto (mergeInto (.record first) (.record middle)) (.record last) =
        mergeInto (.record first) (mergeInto (.record middle) (.record last))) := by
  have merges (dest source : Fields) :
      mergeInto (.record dest) (.record source) = .record (mergeFields dest source) :=
        merge_object none none dest source
  refine ⟨⟨mergeFields first middle, merges first middle, keys_mergeFields first given.distinct, fun key => ?_⟩, ?_, ?_⟩
  · exact (get?_mergeFields key first given.distinct).trans (mergedUnder_eq _ _).symm
  · rw [merges, merges, mergeFields_again first middle whole given]
  · intro open_
    rw [merges, merges, merges, merges, mergeFields_assoc first middle last whole given more open_]

/-- An object, one that lies over it, and one over both: a value that is no object stands where only the
last one has an object, and another one where the first has an object and the last has nothing. -/
def lowest : Fields := [("x", .record [("p", .int 1)]), ("y", .record [("q", .bool true)])]

def between : Fields := [("y", .null), ("x", .record [("p", .record [("r", .null)]), ("s", .int 2)])]

def topmost : Fields :=
  [("x", .record [("p", .record [("t", .array [])]), ("s", .record [])]), ("z", .text "new")]

theorem spotAt_lowest {path : List Text} (outer : spotAt lowest path = .object) :
    path = [] ∨ path = ["x"] ∨ path = ["y"] := by
  have single (key : Text) (value : Value) (leaf : value.isObject = false) {rest : List Text}
      (inside : spotAt [(key, value)] rest = .object) : rest = [] := by
    cases rest with
    | nil => rfl
    | cons name others =>
        by_cases same : key = name
        · rw [spotAt_leaf (by rw [Entries.get?_cons, if_pos same]) leaf] at inside
          split at inside <;> cases inside
        · rw [spotAt, Entries.get?_cons, if_neg same, Entries.get?_nil] at inside
          cases inside
  cases path with
  | nil => exact Or.inl rfl
  | cons key rest =>
      by_cases x : key = "x"
      · subst x
        exact Or.inr (Or.inl (congrArg _ (single "p" (.int 1) rfl outer)))
      · by_cases y : key = "y"
        · subst y
          exact Or.inr (Or.inr (congrArg _ (single "q" (.bool true) rfl outer)))
        · rw [spotAt, lowest, Entries.get?_cons, Entries.get?_cons, Entries.get?_nil, if_neg (Ne.symm x),
            if_neg (Ne.symm y)] at outer
          cases outer

theorem open_topmost (path : List Text) : ¬Hides lowest between topmost path := by
  intro hides
  obtain ⟨value, leaf⟩ := hides.leaf
  have inner := hides.inner
  rcases spotAt_lowest hides.outer with rfl | rfl | rfl
  · cases leaf
  · cases leaf
  · cases inner

theorem mergeInto_laws_topmost : Written (.record lowest) ∧ Written (.record between) ∧ Written (.record topmost) ∧
    (∀ path, ¬Hides lowest between topmost path) ∧
    mergeInto (mergeInto (.record lowest) (.record between)) (.record topmost) =
      mergeInto (.record lowest) (mergeInto (.record between) (.record topmost)) ∧
    mergeInto (.record lowest) (mergeInto (.record between) (.record topmost)) = .record [
      ("x", .record [("p", .record [("r", .null), ("t", .array [])]), ("s", .record [])]), ("y", .null),
      ("z", .text "new")] := by
  have whole : Written (.record lowest) := by decide +kernel
  have given : Written (.record between) := by decide +kernel
  have more : Written (.record topmost) := by decide +kernel
  exact ⟨whole, given, more, open_topmost, (mergeInto_laws whole given more).2.2 open_topmost, by decide +kernel⟩

/-- A null between two objects hides the first one from the last, unless these are merged first. -/
example :
    let first : Value := .record [("x", .record [("p", .int 1)])]
    let middle : Value := .record [("x", .null)]
    let last : Value := .record [("x", .record [("q", .int 2)])]
    mergeInto (mergeInto first middle) last = last ∧
      mergeInto first (mergeInto middle last) = .record [("x", .record [("p", .int 1), ("q", .int 2)])] := by
  decide +kernel

end EventSchema.Value
