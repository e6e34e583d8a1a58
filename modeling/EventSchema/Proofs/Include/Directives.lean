import EventSchema.Proofs.Fragment
import EventSchema.Proofs.Include.Content
import EventSchema.Proofs.Value.Priority
import EventSchema.Proofs.Value.Same

/-!
The directives that are left after an expansion.

Expanding an item takes the directive among its attributes away and those inside single attributes,
and merging included content brings none of them back, at any depth of files. Only a file that is
included inside an attribute and has a directive at its own top gives that one to the attribute: what
is at the top of a file is not expanded.
-/

set_option autoImplicit false

namespace EventSchema

open Value

namespace Include

variable {tree : Tree}

/-- No directive is a key of the value, as far as it is an object. -/
def Undirected (value : Value) : Prop :=
  ∀ mark fields, value = .object mark fields → Entries.get? directive fields = none

theorem undirected_object {mark : Option Nat} {fields : Fields} :
    Undirected (.object mark fields) ↔ Entries.get? directive fields = none := by
  constructor
  · exact fun undirected => undirected mark fields rfl
  · rintro absent _ _ ⟨⟩
    exact absent

theorem undirected_of_not_object {value : Value} (shape : value.isObject = false) :
    Undirected value := by
  rintro mark fields rfl
  cases shape

theorem Undirected.shift {value : Value} (undirected : Undirected value) (amount : Nat) :
    Undirected (value.shift amount) := by
  cases value with
  | object mark fields =>
      rw [Value.shift, undirected_object, get?_shiftFields, undirected_object.mp undirected]
      rfl
  | null | bool _ | int _ | float _ | text _ | array _ =>
      simp only [Value.shift]
      exact undirected

theorem Undirected.asFields {value : Value} (undirected : Undirected value) {fields : Fields}
    (opened : value.asFields = .ok fields) : Entries.get? directive fields = none := by
  cases value with
  | object mark own => exact Except.ok.inj opened ▸ undirected mark own rfl
  | null | bool _ | int _ | float _ | text _ | array _ => cases opened

/-! ### Among the attributes of an item -/

def Cleared (item : Fields) : Prop :=
  ∀ value, Entries.get? "attributes" item = some value → Undirected value

private theorem cleared_put {item : Fields} {value : Value} (undirected : Undirected value) :
    Cleared (Entries.put "attributes" value item) := by
  intro other found
  rw [Entries.get?_put_self, Option.some.injEq] at found
  exact found ▸ undirected

theorem Cleared.orNull {item : Fields} (cleared : Cleared item) :
    Undirected (Entries.orNull "attributes" item) := by
  unfold Entries.orNull Entries.getOr
  cases found : Entries.get? "attributes" item with
  | none => exact undirected_of_not_object rfl
  | some value => exact cleared value found

private theorem mergeOwn_undirected {included merged : Value} {own : Fields} (undirected : Undirected included)
    (absent : Entries.get? directive own = none) (ran : mergeOwn included own = .ok merged) :
    Undirected merged := by
  unfold mergeOwn at ran
  split at ran
  · exact Except.ok.inj ran ▸ undirected
  · obtain ⟨fields, opened, same⟩ := bind_eq_ok.mp ran
    rw [← pure_eq_ok.mp same]
    exact undirected_object.mpr (absent_overlay (undirected.asFields opened) absent)

/-- A merge of included content leaves the item as it is, or it writes its attributes: those of the
included content, tagged or not, with the item's own over them. -/
theorem mergeIncluded_ok {context : Text} {item included merged : Fields}
    (ran : (mergeIncluded context item included).Yields merged) :
    (merged = item ∧ Entries.get? "attributes" included = none) ∨ ∃ before amount offered own joined,
      Entries.get? "attributes" included = some before ∧
      (offered = before.shift amount ∧ Entries.get? "meta" included ≠ some (.text "profile") ∨
        ∃ given next fields, Entries.get? "name" included = some given ∧
          (before.shift amount).asFields = .ok fields ∧
          offered = .record (tag ((given.shift amount).mark next).1 fields)) ∧
      (Entries.orNull "attributes" item).asFields = .ok own ∧ mergeOwn offered own = .ok joined ∧
      merged = Entries.put "attributes" joined item := by
  unfold mergeIncluded at ran
  extract_lets shifted at ran
  split at ran
  · rename_i absent
    change Entries.get? "attributes" (shiftFields _ included) = none at absent
    rw [get?_shiftFields, Option.map_eq_none_iff] at absent
    obtain ⟨_, _, ran⟩ := Act.yields_bind ran
    exact Or.inl ⟨(Act.yields_pure.mp ran).symm, absent⟩
  · rename_i isProfile merge _ attributes found
    change Entries.get? "attributes" (shiftFields _ included) = some attributes at found
    rw [get?_shiftFields, Option.map_eq_some_iff] at found
    obtain ⟨before, known, same⟩ := found
    right
    have mergeOk (offered : Value) (ran : (merge offered).Yields merged) : ∃ own joined,
        (Entries.orNull "attributes" item).asFields = .ok own ∧ mergeOwn offered own = .ok joined ∧
          merged = Entries.put "attributes" joined item := by
      obtain ⟨own, opened, ran⟩ := Act.yields_bind ran
      obtain ⟨joined, joins, ran⟩ := Act.yields_bind ran
      exact ⟨own, joined, Act.yields_lift.mp opened, Act.yields_lift.mp joins,
        (Act.yields_pure.mp ran).symm⟩
    split at ran
    · split at ran
      · obtain ⟨_, impossible, _⟩ := Act.yields_bind ran
        exact absurd impossible Act.not_yields_throw
      · rename_i name called
        change Entries.get? "name" (shiftFields _ included) = some name at called
        rw [get?_shiftFields, Option.map_eq_some_iff] at called
        obtain ⟨given, naming, rfl⟩ := called
        extract_lets tagged at ran
        obtain ⟨fields, opened, ran⟩ := Act.yields_bind ran
        obtain ⟨offered, made, ran⟩ := Act.yields_bind ran
        obtain ⟨own, joined, rest⟩ := mergeOk offered ran
        exact ⟨before, _, offered, own, joined, known, Or.inr ⟨given, _, fields, naming,
          same ▸ Act.yields_lift.mp opened, (Act.yields_pure.mp made).symm⟩, rest⟩
    · rename_i other
      have sorted : Entries.get? "meta" included ≠ some (.text "profile") := by
        intro profile
        apply other
        simp only [isProfile, shifted]
        rw [get?_shiftFields, profile, Option.map_some, (renews_shift _).leaf _ rfl]
        exact equals_text.mpr rfl
      obtain ⟨offered, made, ran⟩ := Act.yields_bind ran
      obtain ⟨own, joined, rest⟩ := mergeOk offered ran
      exact ⟨before, _, offered, own, joined, known,
        Or.inl ⟨(Act.yields_pure.mp made).symm.trans same.symm, sorted⟩, rest⟩

private theorem mergeIncluded_cleared {context : Text} {item included merged : Fields} (own : Cleared item)
    (inside : Cleared included) (ran : (mergeIncluded context item included).Yields merged) :
    Cleared merged := by
  rcases mergeIncluded_ok ran with ⟨same, _⟩ | ⟨before, amount, offered, fields, joined, known, shape,
    opened, joins, same⟩
  · exact same ▸ own
  · have shifted := (inside before known).shift amount
    have undirected : Undirected offered := by
      rcases shape with ⟨same, _⟩ | ⟨given, next, fields, _, opened, same⟩
      · exact same ▸ shifted
      · rw [same, record, undirected_object, tag, Entries.get?_mapValues, shifted.asFields opened]
        rfl
    rw [same]
    exact cleared_put (mergeOwn_undirected undirected (own.orNull.asFields opened) joins)

private theorem mergeIncluded_frame {context field : Text} {item included merged : Fields}
    (other : field ≠ "attributes") (ran : (mergeIncluded context item included).Yields merged) :
    Entries.get? field merged = Entries.get? field item := by
  rcases mergeIncluded_ok ran with ⟨same, _⟩ | ⟨_, _, _, _, joined, _, _, _, _, same⟩
  · rw [same]
  · rw [same, Entries.get?_put, if_neg other]

variable {reader : Reader}

/-- What the reader gives has no directive among its attributes. -/
def Clearing (reader : Reader) : Prop :=
  ∀ name context included, (reader name context).content = .ok (some included) → Cleared included

private theorem mergeAll_cleared (fixed : ∀ name context, (reader name context).Fixed tree)
    (clearing : Clearing reader) {context : Text} {names : List Text} {item merged : Fields}
    (own : Cleared item) (ran : (mergeAll reader context names item).content = .ok merged) :
    Cleared merged := by
  rw [content_mergeAll fixed] at ran
  refine foldlM_invariant ran own fun state name next _ before step => ?_
  obtain ⟨included, read, step⟩ := bind_eq_ok.mp step
  cases included with
  | none => exact pure_eq_ok.mp step ▸ before
  | some included =>
      exact mergeIncluded_cleared before (clearing name context included read)
        (Act.settles_of_content tree step).yields

private theorem mergeAll_frame (fixed : ∀ name context, (reader name context).Fixed tree)
    {context field : Text} {names : List Text} {item merged : Fields} (other : field ≠ "attributes")
    (ran : (mergeAll reader context names item).content = .ok merged) :
    Entries.get? field merged = Entries.get? field item := by
  rw [content_mergeAll fixed] at ran
  refine foldlM_invariant (motive := fun state => Entries.get? field state = Entries.get? field item)
    ran rfl fun state name next _ before step => ?_
  obtain ⟨included, read, step⟩ := bind_eq_ok.mp step
  cases included with
  | none => exact pure_eq_ok.mp step ▸ before
  | some included =>
      exact (mergeIncluded_frame other (Act.settles_of_content tree step).yields).trans before

theorem expandEach_ok {context : Text} {item expanded : Fields}
    (ran : expandEach reader context item = .ok expanded) :
    ∃ attributes results, (Entries.orNull "attributes" item).asFields = .ok attributes ∧
      Entries.Related (fun name value result =>
        (expandAttribute reader context name value).content = .ok result) attributes results ∧
      expanded = Entries.put "attributes" (.record results) item := by
  obtain ⟨attributes, opened, ran⟩ := bind_eq_ok.mp ran
  obtain ⟨results, each, ran⟩ := bind_eq_ok.mp ran
  exact ⟨attributes, results, opened, Entries.mapM_eq_ok.mp each, (pure_eq_ok.mp ran).symm⟩

theorem expandWith_ok (fixed : ∀ name context, (reader name context).Fixed tree) {context : Text}
    {item expanded : Fields} (ran : (expandWith reader context item).content = .ok expanded) :
    (expanded = item ∧ ∀ mark own, Entries.get? "attributes" item ≠ some (.object mark own)) ∨
    ∃ mark own merged, Entries.get? "attributes" item = some (.object mark own) ∧
      (merged = item ∧ Entries.get? directive own = none ∨
        ∃ context names, (mergeAll reader context names (Entries.put "attributes"
          (.object mark (Entries.erase directive own)) item)).content = .ok merged) ∧
      expandEach reader context merged = .ok expanded := by
  rw [content_expandWith fixed] at ran
  split at ran
  · rename_i mark own found
    refine Or.inr ⟨mark, own, ?_⟩
    split at ran
    · rename_i absent
      exact ⟨item, found, Or.inl ⟨rfl, absent⟩, ran⟩
    · obtain ⟨names, _, ran⟩ := bind_eq_ok.mp ran
      obtain ⟨merged, joined, ran⟩ := bind_eq_ok.mp ran
      exact ⟨merged, found, Or.inr ⟨_, names, joined⟩, ran⟩
  · rename_i other
    exact Or.inl ⟨(Except.ok.inj ran).symm, other⟩

/-- An expansion leaves no directive among the attributes. -/
theorem expandWith_cleared (fixed : ∀ name context, (reader name context).Fixed tree)
    (clearing : Clearing reader) {context : Text} {item expanded : Fields}
    (ran : (expandWith reader context item).content = .ok expanded) : Cleared expanded := by
  rcases expandWith_ok fixed ran with ⟨same, other⟩ | ⟨mark, own, merged, found, joined, ran⟩
  · rw [same]
    rintro value known mark fields rfl
    exact absurd known (other mark fields)
  · have before : Cleared merged := by
      rcases joined with ⟨same, absent⟩ | ⟨context, names, joined⟩
      · rw [same]
        intro value known
        rw [found, Option.some.injEq] at known
        exact known ▸ undirected_object.mpr absent
      · refine mergeAll_cleared fixed clearing (cleared_put ?_) joined
        rw [undirected_object, Entries.get?_erase, if_pos rfl]
    obtain ⟨attributes, results, opened, each, same⟩ := expandEach_ok ran
    rw [same]
    refine cleared_put (undirected_object.mpr ?_)
    rw [Entries.get?_eq_none_iff, each.keys_eq, ← Entries.get?_eq_none_iff]
    exact before.orNull.asFields opened

theorem expandWith_frame (fixed : ∀ name context, (reader name context).Fixed tree)
    {context field : Text} {item expanded : Fields} (other : field ≠ "attributes")
    (ran : (expandWith reader context item).content = .ok expanded) :
    Entries.get? field expanded = Entries.get? field item := by
  have written (value : Value) (item : Fields) :
      Entries.get? field (Entries.put "attributes" value item) = Entries.get? field item := by
    rw [Entries.get?_put, if_neg other]
  rcases expandWith_ok fixed ran with ⟨same, _⟩ | ⟨mark, own, merged, _, joined, ran⟩
  · rw [same]
  · obtain ⟨_, results, _, _, same⟩ := expandEach_ok ran
    rw [same, written]
    rcases joined with ⟨same, _⟩ | ⟨context, names, joined⟩
    · rw [same]
    · rw [mergeAll_frame fixed other joined, written]

/-! ### Inside one attribute -/

/-- Files that are included under an attribute give it a directive exactly if one of them has one at
its top. -/
theorem mergeUnder_undirected_iff (fixed : ∀ name context, (reader name context).Fixed tree)
    {context : Text} {names : List Text} {mark : Option Nat} {fields : Fields} {result : Value}
    (ran : (mergeUnder reader context names (.object mark fields)).content = .ok result) :
    Undirected result ↔ Entries.get? directive fields = none ∧ ∀ name ∈ names, ∀ included,
      (reader name context).content = .ok (some included) → Entries.get? directive included = none := by
  rw [content_mergeUnder fixed] at ran
  induction names generalizing mark fields with
  | nil =>
      rw [List.foldlM_nil, pure_eq_ok] at ran
      rw [← ran, undirected_object]
      exact (and_iff_left fun name impossible => by cases impossible).symm
  | cons name rest ih =>
      rw [List.foldlM_cons] at ran
      obtain ⟨merged, step, ran⟩ := bind_eq_ok.mp ran
      obtain ⟨outcome, read, step⟩ := bind_eq_ok.mp step
      rw [List.forall_mem_cons]
      cases outcome with
      | none =>
          rw [← pure_eq_ok.mp step] at ran
          rw [ih ran, read]
          exact and_congr_right fun _ => (and_iff_right fun included impossible => by
            cases impossible).symm
      | some included =>
          rw [← pure_eq_ok.mp step, record, merge_object] at ran
          have top : Entries.get? directive (Entries.erase "attributes" included) =
              Entries.get? directive included := by
            rw [Entries.get?_erase, if_neg (by decide)]
          have given : (∀ other, (reader name context).content = .ok (some other) →
              Entries.get? directive other = none) ↔ Entries.get? directive included = none := by
            rw [read]
            exact ⟨fun each => each included rfl, by rintro absent _ ⟨⟩; exact absent⟩
          rw [ih ran, get?_mergeFields_eq_none, top, given, and_comm (b := Entries.get? directive fields = none),
            and_assoc]

/-- An expanded attribute keeps a directive only if a file that it includes has one at its top. -/
theorem expandAttribute_undirected (fixed : ∀ name context, (reader name context).Fixed tree)
    (bare : ∀ name context included, (reader name context).content = .ok (some included) →
      Entries.get? directive included = none) {context name : Text} {value result : Value}
    (ran : (expandAttribute reader context name value).content = .ok result) : Undirected result := by
  rcases object_or value with ⟨mark, fields, rfl⟩ | shape
  · rw [content_expandAttribute fixed] at ran
    split at ran
    · rename_i absent
      exact Except.ok.inj ran ▸ undirected_object.mpr absent
    · obtain ⟨names, _, ran⟩ := bind_eq_ok.mp ran
      refine (mergeUnder_undirected_iff fixed ran).mpr ⟨?_, fun name _ => bare name _⟩
      rw [Entries.get?_erase, if_pos rfl]
  · have kept : (expandAttribute reader context name value).content = .ok value := by
      cases value with
      | object mark fields => cases shape
      | null | bool _ | int _ | float _ | text _ | array _ => rfl
    rw [kept, Except.ok.injEq] at ran
    exact ran ▸ undirected_of_not_object shape

/-! ### Included files -/

theorem read_ok {places : Places} {stack : List Path} {name context : Text} {included : Fields}
    (ran : (read tree places stack name context).content = .ok (some included)) :
    ∃ path fragment, path ∉ stack ∧ path ∈ candidates tree ∧
      (find tree places name).content = .ok (path, fragment) ∧
      (expandWith (read tree places (stack ++ [path])) ("include " ++ name.enclosed)
        fragment).content = .ok included := by
  rw [content_read] at ran
  split at ran
  · split at ran
    · cases ran
    · cases ran
  · rename_i path fragment found
    split at ran
    · cases ran
    · rename_i fresh
      split at ran
      · rename_i present
        obtain ⟨expanded, inside, same⟩ := map_eq_ok.mp ran
        cases same
        exact ⟨path, fragment, fresh, present, found, inside⟩
      · cases ran

/-- Included files have no directive among their attributes, at any depth: each one entered leaves
fewer to enter. -/
theorem clearing_read (places : Places) (stack : List Path) : Clearing (read tree places stack) := by
  intro name context included ran
  obtain ⟨path, fragment, fresh, present, _, inside⟩ := read_ok ran
  exact expandWith_cleared (fixed_read places _) (clearing_read places (stack ++ [path])) inside
termination_by ((candidates tree).filter (· ∉ stack)).length
decreasing_by exact remaining_lt present fresh

/-- An expansion leaves no directive among the attributes of the item. An attribute itself keeps one
only if some file that can be included has one at its top, beside its attributes: what stands there is
merged into the attribute that includes the file, and is not expanded. -/
theorem expand_undirected {places : Places} {context : Text} {origin : Option Path}
    {item expanded : Fields} {run after : Run} (faithful : run.Faithful tree)
    (ran : (expand tree places context origin item).outcome run = (.ok expanded, after))
    {mark : Option Nat} {attributes : Fields}
    (found : Entries.get? "attributes" expanded = some (.object mark attributes)) :
    Entries.get? directive attributes = none ∧
      ∀ entry ∈ attributes, Undirected entry.2 ∨ ∃ file path fragment,
        (find tree places file).content = .ok (path, fragment) ∧
          Entries.get? directive fragment ≠ none := by
  have told : (expand tree places context origin item).content = .ok expanded :=
    (fixed_expand places context origin item run faithful).1.symm.trans (congrArg Prod.fst ran)
  rw [content_expand] at told
  obtain ⟨stack, _, told⟩ := bind_eq_ok.mp told
  have fixed (name context : Text) : (read tree places stack name context).Fixed tree :=
    fixed_read places stack name context
  refine ⟨undirected_object.mp (expandWith_cleared fixed (clearing_read places stack) told _ found), ?_⟩
  intro entry member
  by_cases bare : ∀ name context included, (read tree places stack name context).content =
      .ok (some included) → Entries.get? directive included = none
  · refine Or.inl ?_
    rcases expandWith_ok fixed told with ⟨same, other⟩ | ⟨own, given, merged, _, _, told⟩
    · exact absurd (same ▸ found) (other mark attributes)
    · obtain ⟨before, results, _, each, same⟩ := expandEach_ok told
      rw [same, Entries.get?_put_self] at found
      cases found
      obtain ⟨origin, _, expands⟩ := each.mem_right member
      exact expandAttribute_undirected fixed bare expands
  · push Not at bare
    obtain ⟨name, context, included, ran, top⟩ := bare
    obtain ⟨path, fragment, _, _, found, inside⟩ := read_ok ran
    refine Or.inr ⟨name, path, fragment, found, ?_⟩
    rwa [← expandWith_frame (fixed_read places _) (by decide) inside]

/-- Constants that come from two files, the first of which includes the other at its top. -/
def chainedConstants : Tree where
  root := .folder [
    ("a.json", .spelling [(directive, .text "enums/b.json"), ("enum", .record [("1", .record [])])]),
    ("enums", .folder [("b.json", .spelling [("enum", .record [("2", .record [])])])])]
  directory := []

/-- The attributes of an item with an attribute that includes those constants. -/
def includingConstants : Fields := [("x", .record [(directive, .text "a.json")])]

def includedConstants : Fields :=
  [("x", .record [(directive, .text "enums/b.json"), ("enum", .record [("1", .record [])])])]

private theorem expand_includingConstants :
    ((expand chainedConstants (.schema ("/" : Text)) "test" none
      [("attributes", .record includingConstants)]).outcome {}).1.toOption =
        some ([("attributes", .record includedConstants)] : Fields) := by
  decide +kernel

theorem expand_undirected_includedConstants :
    ∃ run after : Run, run.Faithful chainedConstants ∧
      (expand chainedConstants (.schema ("/" : Text)) "test" none
        [("attributes", .record includingConstants)]).outcome run =
          (.ok [("attributes", .record includedConstants)], after) ∧
      Entries.get? directive includedConstants = none ∧ ∃ file path fragment,
        (find chainedConstants (.schema ("/" : Text)) file).content = .ok (path, fragment) ∧
          Entries.get? directive fragment ≠ none := by
  cases ran : (expand chainedConstants (.schema ("/" : Text)) "test" none
      [("attributes", .record includingConstants)]).outcome {} with
  | mk outcome after =>
      have told := expand_includingConstants
      rw [ran] at told
      cases outcome with
      | error fault => cases told
      | ok expanded =>
          cases Option.some.inj told
          have start := Run.faithful_start chainedConstants
          obtain ⟨cleared, each⟩ := expand_undirected start ran rfl
          refine ⟨{}, after, start, ran, cleared, ?_⟩
          rcases each _ (List.mem_singleton_self _) with undirected | left
          · exact absurd (undirected none _ rfl) (by decide)
          · exact left

/-- A directive at the top of a file that is included inside an attribute is not expanded. -/
theorem expand_leaves_directive :
    ∃ expanded, (expand chainedConstants (.schema ("/" : Text)) "test" none
      [("attributes", .record includingConstants)]).Yields expanded ∧
        ¬(Undirected (Entries.orNull "attributes" expanded) ∧
          ∀ entry ∈ Entries.attributes expanded, Undirected entry.2) := by
  obtain ⟨expanded, yields, same⟩ :=
    Act.exists_of_outcome ((congrFun Option.map_id _).trans expand_includingConstants)
  refine ⟨expanded, yields, fun claimed => ?_⟩
  cases same
  exact absurd (claimed.2 _ (List.mem_singleton_self _) none _ rfl) (by decide)

end Include

end EventSchema
