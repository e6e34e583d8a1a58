import EventSchema.Proofs.Include.Expansion
import EventSchema.Proofs.Include.Profiled

/-!
Where an expansion stops at a circle.

An expansion reads the files that the directives of an item list, in their order, and merges what they
give. Merging files that have no directive left changes no directive of the item. So if each listed file
either gives itself or runs into a circle, the expansion succeeds where they all give themselves, and runs
into a circle where one of them does.
-/

set_option autoImplicit false

namespace EventSchema

open Value

variable {α β : Type} {tree : Tree}

namespace Include

/-! ### Computations that run into a circle -/

/-- The computation stops at a file that includes itself. -/
def Circular (computation : Except Fault α) : Prop :=
  ∃ context chain, computation = .error (.integrity (.includeCycle context chain))

theorem Circular.bind {first : Except Fault α} (circular : Circular first) (next : α → Except Fault β) :
    Circular (first >>= next) := by
  obtain ⟨context, chain, rfl⟩ := circular
  exact ⟨context, chain, rfl⟩

theorem Circular.map {computation : Except Fault α} (circular : Circular computation) (f : α → β) :
    Circular (f <$> computation) := by
  obtain ⟨context, chain, rfl⟩ := circular
  exact ⟨context, chain, rfl⟩

private theorem Circular.not_ok {computation : Except Fault α} (circular : Circular computation) (value : α) :
    computation ≠ .ok value := by
  obtain ⟨context, chain, rfl⟩ := circular
  exact fun impossible => by cases impossible

private theorem circular_mapM {f : α → Except Fault β} {items : List α}
    (each : ∀ item ∈ items, (∃ value, f item = .ok value) ∨ Circular (f item))
    (circle : ∃ item ∈ items, Circular (f item)) : Circular (items.mapM f) := by
  induction items with
  | nil =>
      obtain ⟨_, impossible, _⟩ := circle
      cases impossible
  | cons head rest ih =>
      rw [List.mapM_cons]
      obtain ⟨here, later⟩ := List.forall_mem_cons.mp each
      rcases here with ⟨value, treated⟩ | circular
      · rw [treated, ok_bind]
        obtain ⟨item, member, circular⟩ := circle
        rcases List.mem_cons.mp member with rfl | there
        · exact absurd treated (circular.not_ok value)
        · exact (ih later ⟨item, there, circular⟩).bind _
      · exact circular.bind _

private theorem exists_foldlM_ok {motive : β → Prop} {step : β → α → Except Fault β} {items : List α} {start : β}
    (initial : motive start)
    (each : ∀ state, motive state → ∀ item ∈ items, ∃ next, step state item = .ok next ∧ motive next) :
    ∃ result, items.foldlM step start = .ok result ∧ motive result := by
  induction items generalizing start with
  | nil => exact ⟨start, rfl, initial⟩
  | cons head rest ih =>
      obtain ⟨middle, first, held⟩ := each start initial head (List.mem_cons_self ..)
      rw [List.foldlM_cons, first, ok_bind]
      exact ih held fun state before item member => each state before item (List.mem_cons_of_mem _ member)

private theorem circular_foldlM {motive : β → Prop} {step : β → α → Except Fault β} {items : List α} {start : β}
    (initial : motive start)
    (each : ∀ state, motive state → ∀ item ∈ items,
      (∃ next, step state item = .ok next ∧ motive next) ∨ Circular (step state item))
    (circle : ∃ item ∈ items, ∀ state, Circular (step state item)) : Circular (items.foldlM step start) := by
  induction items generalizing start with
  | nil =>
      obtain ⟨_, impossible, _⟩ := circle
      cases impossible
  | cons head rest ih =>
      rw [List.foldlM_cons]
      rcases each start initial head (List.mem_cons_self ..) with ⟨middle, first, held⟩ | circular
      · rw [first, ok_bind]
        obtain ⟨item, member, circular⟩ := circle
        rcases List.mem_cons.mp member with rfl | there
        · exact absurd first ((circular start).not_ok middle)
        · exact ih held (fun state before item member => each state before item (List.mem_cons_of_mem _ member))
            ⟨item, there, circular⟩
      · exact circular.bind _

/-! ### Directives inside attributes -/

def directiveIn : Value → Option Value
  | .object _ fields => Entries.get? directive fields
  | _ => none

private theorem directiveAt_eq (key : Text) (attributes : Fields) :
    directiveAt key attributes = (Entries.get? key attributes).bind directiveIn := by
  unfold directiveAt
  cases Entries.get? key attributes with
  | none => rfl
  | some value => cases value <;> rfl

private theorem directiveIn_merge {dest value : Value} (silent : directiveIn dest = none) (keyed : Keyed value) :
    directiveIn (merge dest value) = directiveIn value := by
  rcases object_or value with ⟨mark, fields, rfl⟩ | shape
  · rcases object_or dest with ⟨own, base, rfl⟩ | apart
    · rw [merge_object, directiveIn, directiveIn, get?_mergeFields directive base (keyed_object.mp keyed).distinct]
      rw [directiveIn] at silent
      rw [silent]
      cases Entries.get? directive fields <;> rfl
    · rw [merge_apart (.inl apart)]
  · rw [merge_apart (.inr shape)]

variable {key : Text} {onValue : Value → Value} {onFields : Fields → Fields}

private theorem directiveIn_renewed (renews : Renews onValue onFields) {value : Value} (single : value.Single)
    (leaf : Leaf (directiveIn value)) : directiveIn (onValue value) = directiveIn value := by
  rcases single.shape with apart | ⟨fields, rfl⟩
  · rw [renews.leaf value apart]
  · rw [renews.record, record, record, directiveIn, directiveIn, renews.found]
    cases found : Entries.get? directive fields with
    | none => rfl
    | some given => exact congrArg some (renews.leaf given (leaf given found))

private theorem directiveAt_renewed (renews : Renews onValue onFields) {attributes : Fields}
    (each : SingleEach attributes)
    (leaf : Leaf (directiveAt key attributes)) :
    directiveAt key (onFields attributes) = directiveAt key attributes := by
  rw [directiveAt_eq] at leaf
  rw [directiveAt_eq, directiveAt_eq, renews.found]
  cases found : Entries.get? key attributes with
  | none => rfl
  | some value =>
      rw [found] at leaf
      exact directiveIn_renewed renews (each.of_get? found) leaf

variable {fields source : Fields}

private theorem directiveAt_overlay_of_absent (each : SingleEach fields) (single : SingleEach source)
    (leaf : Leaf (directiveAt key fields)) (absent : Entries.get? key source = none) :
    directiveAt key (overlay fields source) = directiveAt key fields := by
  induction fields, source using Value.overlay.induct with
  | case1 fields => rw [Value.overlay]
  | case2 fields other value later ih =>
      obtain ⟨onValue, onFields, renews, rest, told⟩ := overlayOne_renews other value fields later
      obtain ⟨own, others⟩ := List.forall_mem_cons.mp single
      obtain ⟨first, second⟩ := each.overlayOne other others own
      rw [Entries.get?_cons] at absent
      split at absent
      · cases absent
      · rename_i apart
        have same : directiveAt key (overlayOne other value fields later).1 = directiveAt key fields := by
          rw [← directiveAt_renewed renews each leaf, directiveAt_eq, directiveAt_eq, told,
            if_neg (Ne.symm apart), renews.found]
        rw [Value.overlay, ih first second (same ▸ leaf) (by rw [rest, renews.found, absent, Option.map_none]), same]

/-- What is written over attributes that have no directive under the key keeps its own. -/
theorem directiveAt_overlay (whole : Keyed (.record fields)) (each : SingleEach fields)
    (keyed : Keyed (.record source)) (single : SingleEach source) (leaf : Leaf (directiveAt key source))
      (silent : directiveAt key fields = none) :
    directiveAt key (overlay fields source) = directiveAt key source := by
  induction fields, source using Value.overlay.induct with
  | case1 fields => rw [Value.overlay, silent, directiveAt_eq, Entries.get?_nil, Option.bind_none]
  | case2 fields other value later ih =>
      obtain ⟨onValue, onFields, renews, rest, told⟩ := overlayOne_renews other value fields later
      obtain ⟨own, others⟩ := List.forall_mem_cons.mp single
      obtain ⟨given, keyedLater⟩ := keyed_cons keyed
      have fresh := (List.nodup_cons.mp keyed.distinct).1
      obtain ⟨first, second⟩ := each.overlayOne other others own
      obtain ⟨wholeFirst, keyedSecond⟩ := whole.overlayOne other keyedLater given
      rw [Value.overlay]
      rw [directiveAt_eq, Entries.get?_cons] at leaf
      rw [directiveAt_eq key ((other, value) :: later), Entries.get?_cons]
      by_cases here : other = key
      · subst here
        rw [if_pos rfl] at leaf ⊢
        -- what is merged under the key is followed to the end: nothing later has the key
        have written : directiveAt other (overlayOne other value fields later).1 = directiveIn value := by
          rw [directiveAt_eq, told, if_pos rfl, Option.map_some, Option.bind_some]
          rw [directiveAt_eq] at silent
          cases found : Entries.get? other fields with
          | none => exact directiveIn_renewed renews own leaf
          | some old =>
              rw [found] at silent
              have merged := directiveIn_merge silent given
              exact (directiveIn_renewed renews ((each.of_get? found).merge own) (merged ▸ leaf)).trans merged
        rw [directiveAt_overlay_of_absent first second (written ▸ leaf)
          (by rw [rest, renews.found, Entries.get?_eq_none_iff.mpr fresh, Option.map_none]), written, Option.bind_some]
      · rw [if_neg here, ← directiveAt_eq] at leaf ⊢
        have later_same := directiveAt_renewed renews others leaf
        have first_silent : directiveAt key (overlayOne other value fields later).1 = none := by
          rw [← silent, ← directiveAt_renewed renews each (silent ▸ leaf_none), directiveAt_eq, directiveAt_eq, told,
            if_neg (Ne.symm here), renews.found]
        rw [ih wholeFirst first keyedSecond second (by rw [rest, later_same]; exact leaf) first_silent, rest,
          later_same]

/-! ### Merging files without directives -/

/-- A file that may be included: its attributes, if it has any, are an object, no directive stands beside
them, and it has a name if it is a profile. -/
structure Mergeable (fragment : Fields) : Prop where
  shape : ∀ value, Entries.get? "attributes" fragment = some value → value.isObject = true
  bare : Entries.get? directive fragment = none
  named : Entries.get? "meta" fragment = some (.text "profile") → ∃ name, Entries.get? "name" fragment = some name

structure Ready (included : Fields) : Prop extends Mergeable included where
  document : Document included
  settled : ∀ key, directiveAt key (Entries.attributes included) = none

/-- An item into which files are being merged: its attributes are an object, and have the given directives
inside them. -/
structure Merging (directed : Text → Option Value) (item : Fields) : Prop where
  document : Document item
  opened : ∃ own, (Entries.orNull "attributes" item).asFields = .ok own
  kept : ∀ key, directiveAt key (Entries.attributes item) = directed key

section Merging

variable {directed : Text → Option Value} {item included merged : Fields} {context : Text}

/-- Merging a file changes no directive inside the attributes. -/
theorem Merging.step (merging : Merging directed item) (leaf : ∀ key, Leaf (directed key))
    (ready : Ready included) (ran : (mergeIncluded context item included).Yields merged) :
    Merging directed merged := by
  have document := document_mergeIncluded merging.document ready.document ran
  rcases mergeIncluded_ok ran with ⟨rfl, _⟩ | ⟨before, amount, offered, own, joined, known, shape, opened,
    joins, rfl⟩
  · exact merging
  · obtain ⟨mark, fields, rfl⟩ := (object_or before).resolve_right
      (by rw [ready.shape before known]; exact Bool.noConfusion)
    have inside : Entries.attributes included = fields := by rw [Entries.attributes, known]
    have shifted (key : Text) : directiveAt key (shiftFields amount fields) = none := by
      have silent := inside ▸ ready.settled key
      have each : SingleEach fields := ready.document.of_get? known
      rw [directiveAt_renewed (renews_shift amount) each (silent ▸ leaf_none), silent]
    obtain ⟨own', fields', rfl, silent⟩ : ∃ own' fields', offered = .object own' fields' ∧
        ∀ key, directiveAt key fields' = none := by
      rw [shift] at shape
      rcases shape with ⟨rfl, _⟩ | ⟨given, next, opened, _, same, rfl⟩
      · exact ⟨_, _, rfl, shifted⟩
      · cases same
        exact ⟨none, _, rfl, fun key => (directiveAt_tag ..).trans (shifted key)⟩
    obtain ⟨whole, single⟩ := offered_document ready.document known shape
    have given := (merging.document.keyed.orNull _).asFields opened
    have kept (key : Text) : directiveAt key own = directed key := by
      rw [← merging.kept, Entries.attributes_of_orNull opened]
    have each : SingleEach own := Entries.attributes_of_orNull opened ▸ merging.document.single
    refine ⟨document, ?_, fun key => ?_⟩
    · rw [Entries.orNull_put_self]
      rcases attributes_mergeOwn joins with ⟨_, rfl⟩ | ⟨_, _, _, rfl⟩
      · exact ⟨_, rfl⟩
      · exact ⟨_, rfl⟩
    · rw [Entries.attributes_eq_inner, Entries.orEmpty_put_self, ← kept key]
      rcases attributes_mergeOwn joins with ⟨rfl, rfl⟩ | ⟨mark', fields'', same, rfl⟩
      · exact silent key
      · cases same
        exact directiveAt_overlay whole single given each (kept key ▸ leaf key) (silent key)

theorem Merging.exists_step (merging : Merging directed item) (ready : Ready included) (context : Text) :
    ∃ merged, (mergeIncluded context item included).content = .ok merged := by
  obtain ⟨own, opened⟩ := merging.opened
  unfold mergeIncluded
  extract_lets shifted
  split
  · exact ⟨item, rfl⟩
  · rename_i isProfile merge _ attributes found
    change Entries.get? "attributes" (shiftFields _ included) = some attributes at found
    rw [get?_shiftFields, Option.map_eq_some_iff] at found
    obtain ⟨before, known, rfl⟩ := found
    obtain ⟨mark, fields, rfl⟩ := (object_or before).resolve_right
      (by rw [ready.shape before known]; exact Bool.noConfusion)
    have merges (mark : Option Nat) (fields : Fields) :
        ∃ merged, (merge (.object mark fields)).content = .ok merged := by
      unfold merge
      rw [opened, Act.content_lift_bind, ok_bind, Act.content_lift_bind]
      unfold mergeOwn
      split
      · exact ⟨_, rfl⟩
      · exact ⟨_, rfl⟩
    rw [shift]
    split
    · rename_i profile
      split
      · rename_i unnamed
        change Entries.get? "name" (shiftFields _ included) = none at unnamed
        rw [get?_shiftFields, Option.map_eq_none_iff] at unnamed
        have sort : Entries.get? "meta" included = some (.text "profile") := by
          simp only [isProfile, shifted] at profile
          rw [get?_shiftFields] at profile
          cases sorted : Entries.get? "meta" included with
          | none => rw [sorted] at profile; cases profile
          | some sort =>
              rw [sorted] at profile
              dsimp only [Option.map_some] at profile
              rcases object_or sort with ⟨mark, fields, rfl⟩ | leaf
              · rw [shift] at profile
                cases equals_text.mp profile
              · rw [(renews_shift _).leaf sort leaf] at profile
                exact congrArg some (equals_text.mp profile)
        obtain ⟨name, named⟩ := ready.named sort
        cases unnamed.symm.trans named
      · exact merges none _
    · exact merges _ _

end Merging

/-! ### Listed files -/

section Readers

def Includes (reader : Reader) (name : Text) : Prop :=
  ∀ context, ∃ included, (reader name context).content = .ok (some included) ∧ Ready included

def Circles (reader : Reader) (name : Text) : Prop :=
  ∀ context, Circular (reader name context).content

variable {reader : Reader} (fixed : ∀ name context, (reader name context).Fixed tree)
  {names : List Text}
include fixed

private theorem mergeAll_includes {directed : Text → Option Value} {item : Fields} (leaf : ∀ key, Leaf (directed key))
    (merging : Merging directed item) (each : ∀ name ∈ names, Includes reader name) (context : Text) :
    ∃ merged, (mergeAll reader context names item).content = .ok merged ∧ Merging directed merged := by
  rw [content_mergeAll fixed]
  refine exists_foldlM_ok merging fun state held name member => ?_
  obtain ⟨included, read, ready⟩ := each name member context
  obtain ⟨merged, ran⟩ := held.exists_step ready context
  rw [read, ok_bind]
  exact ⟨merged, ran, held.step leaf ready (Act.settles_of_content tree ran).yields⟩

private theorem mergeAll_circles {directed : Text → Option Value} {item : Fields} (leaf : ∀ key, Leaf (directed key))
    (merging : Merging directed item) (each : ∀ name ∈ names, Includes reader name ∨ Circles reader name)
    (circle : ∃ name ∈ names, Circles reader name) (context : Text) :
    Circular (mergeAll reader context names item).content := by
  rw [content_mergeAll fixed]
  refine circular_foldlM merging (fun state held name member => ?_) ?_
  · rcases each name member with includes | circles
    · obtain ⟨included, read, ready⟩ := includes context
      obtain ⟨merged, ran⟩ := held.exists_step ready context
      rw [read, ok_bind]
      exact .inl ⟨merged, ran, held.step leaf ready (Act.settles_of_content tree ran).yields⟩
    · exact .inr ((circles context).bind _)
  · obtain ⟨name, member, circles⟩ := circle
    exact ⟨name, member, fun state => (circles context).bind _⟩

private theorem mergeUnder_includes (each : ∀ name ∈ names, Includes reader name) (context : Text)
    {mark : Option Nat} {fields : Fields} (absent : Entries.get? directive fields = none) :
    ∃ result, (mergeUnder reader context names (.object mark fields)).content = .ok result ∧
      Undirected result := by
  have comes : ∃ result, (mergeUnder reader context names (.object mark fields)).content = .ok result ∧ True := by
    rw [content_mergeUnder fixed]
    refine exists_foldlM_ok trivial fun state _ name member => ?_
    obtain ⟨included, read, _⟩ := each name member context
    rw [read]
    exact ⟨_, rfl, trivial⟩
  obtain ⟨result, ran, _⟩ := comes
  refine ⟨result, ran, (mergeUnder_undirected_iff fixed ran).mpr ⟨absent, fun name member included read => ?_⟩⟩
  obtain ⟨_, same, ready⟩ := each name member context
  cases same.symm.trans read
  exact ready.bare

private theorem mergeUnder_circles (each : ∀ name ∈ names, Includes reader name ∨ Circles reader name)
    (circle : ∃ name ∈ names, Circles reader name) (context : Text) (value : Value) :
    Circular (mergeUnder reader context names value).content := by
  rw [content_mergeUnder fixed]
  refine circular_foldlM (motive := fun _ => True) trivial (fun state _ name member => ?_) ?_
  · rcases each name member with includes | circles
    · obtain ⟨included, read, _⟩ := includes context
      rw [read]
      exact .inl ⟨_, rfl, trivial⟩
    · exact .inr ((circles context).bind _)
  · obtain ⟨name, member, circles⟩ := circle
    exact ⟨name, member, fun state => (circles context).bind _⟩

/-! ### One attribute -/

def Lists (given : Option Value) : Prop := ∀ value, given = some value → ∃ names, names? value = some names

omit fixed in
theorem Lists.leaf {given : Option Value} (lists : Lists given) : Leaf given := by
  rintro value known
  obtain ⟨names, same⟩ := lists value known
  exact not_object_of_names? same

private theorem expandAttribute_includes {value : Value} (lists : Lists (directiveIn value))
    (each : ∀ name ∈ listing (directiveIn value), Includes reader name) (context key : Text) :
    ∃ result, (expandAttribute reader context key value).content = .ok result ∧ Undirected result := by
  rcases object_or value with ⟨mark, fields, rfl⟩ | shape
  · rw [content_expandAttribute fixed]
    rw [directiveIn] at lists each
    cases found : Entries.get? directive fields with
    | none => exact ⟨_, rfl, undirected_object.mpr found⟩
    | some given =>
        obtain ⟨names, same⟩ := lists given found
        have known : listing (some given) = names := by rw [listing, Option.bind_some, same, Option.getD_some]
        rw [found, known] at each
        dsimp only
        rw [fileNames_of_names? same, ok_bind]
        exact mergeUnder_includes fixed each _ (by rw [Entries.get?_erase, if_pos rfl])
  · refine ⟨value, ?_, undirected_of_not_object shape⟩
    cases value with
    | object mark fields => cases shape
    | null | bool _ | int _ | float _ | text _ | array _ => rfl

private theorem expandAttribute_circles {value : Value} (lists : Lists (directiveIn value))
    (each : ∀ name ∈ listing (directiveIn value), Includes reader name ∨ Circles reader name)
    (circle : ∃ name ∈ listing (directiveIn value), Circles reader name) (context key : Text) :
    Circular (expandAttribute reader context key value).content := by
  have none_listed : listing none = [] := rfl
  rcases object_or value with ⟨mark, fields, rfl⟩ | shape
  · rw [content_expandAttribute fixed]
    rw [directiveIn] at lists each circle
    cases found : Entries.get? directive fields with
    | none =>
        rw [found, none_listed] at circle
        obtain ⟨_, impossible, _⟩ := circle
        cases impossible
    | some given =>
        obtain ⟨names, same⟩ := lists given found
        have known : listing (some given) = names := by rw [listing, Option.bind_some, same, Option.getD_some]
        rw [found, known] at each circle
        dsimp only
        rw [fileNames_of_names? same, ok_bind]
        exact mergeUnder_circles fixed each circle _ _
  · obtain ⟨_, impossible, _⟩ := circle
    cases value with
    | object mark fields => cases shape
    | null | bool _ | int _ | float _ | text _ | array _ => cases impossible

/-! ### All attributes -/

variable {directed : Text → Option Value} {item : Fields}

private theorem expandEach_includes (merging : Merging directed item) (lists : ∀ key, Lists (directed key))
    (each : ∀ key, ∀ name ∈ listing (directed key), Includes reader name) (context : Text) :
    ∃ expanded, expandEach reader context item = .ok expanded ∧
      ∀ key, directiveAt key (Entries.attributes expanded) = none := by
  obtain ⟨own, opened⟩ := merging.opened
  have distinct := ((merging.document.keyed.orNull _).asFields opened).distinct
  have kept (key : Text) : directiveAt key own = directed key := by
    rw [← merging.kept, Entries.attributes_of_orNull opened]
  have expands : ∀ entry ∈ own, ∃ result,
      (expandAttribute reader context entry.1 entry.2).content = .ok result ∧ Undirected result := by
    intro entry member
    have same : directed entry.1 = directiveIn entry.2 := by
      rw [← kept, directiveAt_eq, Entries.get?_of_mem distinct member, Option.bind_some]
    exact expandAttribute_includes fixed (same ▸ lists entry.1) (same ▸ each entry.1) context entry.1
  obtain ⟨results, treated⟩ : ∃ results, (own.mapM fun entry => do
      return (entry.1, ← (expandAttribute reader context entry.1 entry.2).content) : Except Fault Fields) =
        .ok results := by
    refine exists_mapM_ok fun entry member => ?_
    obtain ⟨result, ran, _⟩ := expands entry member
    exact ⟨(entry.1, result), by rw [ran]; rfl⟩
  refine ⟨Entries.put "attributes" (.record results) item, ?_, fun key => ?_⟩
  · unfold expandEach
    rw [opened, ok_bind, treated, ok_bind]
    rfl
  · rw [Entries.attributes_put_record, directiveAt_eq]
    cases found : Entries.get? key results with
    | none => rfl
    | some result =>
        obtain ⟨value, member, ran⟩ := (Entries.mapM_eq_ok.mp treated).mem_right (Entries.mem_of_get? found)
        obtain ⟨_, same, undirected⟩ := expands _ member
        cases ran.symm.trans same
        rcases object_or result with ⟨mark, fields, rfl⟩ | shape
        · exact undirected mark fields rfl
        · cases result with
          | object mark fields => cases shape
          | null | bool _ | int _ | float _ | text _ | array _ => rfl

private theorem expandEach_circles (merging : Merging directed item) (lists : ∀ key, Lists (directed key))
    (each : ∀ key, ∀ name ∈ listing (directed key), Includes reader name ∨ Circles reader name)
    (circle : ∃ key, ∃ name ∈ listing (directed key), Circles reader name) (context : Text) :
    Circular (expandEach reader context item) := by
  obtain ⟨own, opened⟩ := merging.opened
  have distinct := ((merging.document.keyed.orNull _).asFields opened).distinct
  have kept (key : Text) : directiveAt key own = directed key := by
    rw [← merging.kept, Entries.attributes_of_orNull opened]
  have same {key : Text} {value : Value} (member : (key, value) ∈ own) : directed key = directiveIn value := by
    rw [← kept, directiveAt_eq, Entries.get?_of_mem distinct member, Option.bind_some]
  have circles {key : Text} {value : Value} (member : (key, value) ∈ own)
      (circle : ∃ name ∈ listing (directiveIn value), Circles reader name) :
      Circular (expandAttribute reader context key value).content :=
    expandAttribute_circles fixed (same member ▸ lists key) (same member ▸ each key) circle context key
  unfold expandEach
  rw [opened, ok_bind]
  refine (circular_mapM ?_ ?_).bind _
  · rintro ⟨key, value⟩ member
    by_cases circle : ∃ name ∈ listing (directiveIn value), Circles reader name
    · exact .inr ((circles member circle).bind _)
    · have includes : ∀ name ∈ listing (directiveIn value), Includes reader name := fun name listed =>
        (each key name (same member ▸ listed)).resolve_right fun here => circle ⟨name, listed, here⟩
      obtain ⟨result, ran, _⟩ := expandAttribute_includes fixed (same member ▸ lists key) includes context key
      exact .inl ⟨(key, result), by rw [ran]; rfl⟩
  · obtain ⟨key, name, listed, here⟩ := circle
    rw [← kept, directiveAt_eq] at listed
    cases found : Entries.get? key own with
    | none =>
        rw [found] at listed
        cases listed
    | some value =>
        rw [found] at listed
        have member := Entries.mem_of_get? found
        exact ⟨(key, value), member, (circles member ⟨name, listed, here⟩).bind _⟩

/-! ### An item -/

omit fixed in
private theorem WellDirected.lists_among (directed : WellDirected item) :
    Lists (Entries.get? directive (Entries.attributes item)) :=
  fun _ known => directed.names (mem_directives_among known)

omit fixed in
private theorem WellDirected.lists_inside (directed : WellDirected item) (key : Text) :
    Lists (directiveAt key (Entries.attributes item)) :=
  fun _ known => directed.names (mem_directives_inside known)

omit fixed in
private theorem mem_namesIncluded_iff (distinct : Entries.Distinct (Entries.attributes item)) (name : Text) :
    name ∈ namesIncluded item ↔ name ∈ listing (Entries.get? directive (Entries.attributes item)) ∨
      ∃ key, name ∈ listing (directiveAt key (Entries.attributes item)) := by
  constructor
  · intro included
    obtain ⟨given, member, listed⟩ := List.mem_flatMap.mp included
    rcases List.mem_append.mp member with among | inside
    · exact .inl (Option.mem_toList.mp among ▸ listed)
    · obtain ⟨⟨key, value⟩, known, found⟩ := List.mem_filterMap.mp inside
      refine .inr ⟨key, ?_⟩
      rw [directiveAt_eq, Entries.get?_of_mem distinct known, Option.bind_some]
      have same : directiveIn value = some given := by
        cases value with
        | object mark fields => exact found
        | null | bool _ | int _ | float _ | text _ | array _ => cases found
      exact same ▸ listed
  · rintro (listed | ⟨key, listed⟩)
    · exact mem_namesIncluded (fun given known => mem_directives_among known) listed
    · exact mem_namesIncluded (fun given known => mem_directives_inside known) listed

private theorem content_expandWith_listing {mark : Option Nat} {own : Fields}
    (found : Entries.get? "attributes" item = some (.object mark own)) (lists : Lists (Entries.get? directive own))
    (context : Text) : (expandWith reader context item).content =
      (mergeAll reader (context ++ " attributes.$include") (listing (Entries.get? directive own))
        (Entries.put "attributes" (.object mark (Entries.erase directive own)) item)).content >>=
          expandEach reader context := by
  rw [content_expandWith fixed, found]
  dsimp only
  cases given : Entries.get? directive own with
  | none =>
      rw [Entries.erase_of_absent given, Entries.put_of_get? found]
      rfl
  | some value =>
      obtain ⟨names, same⟩ := lists value given
      have known : listing (some value) = names := by rw [listing, Option.bind_some, same, Option.getD_some]
      dsimp only
      rw [known, fileNames_of_names? same, ok_bind]

omit fixed in
private theorem merging_start {mark : Option Nat} {own : Fields} (document : Document item)
    (wellDirected : WellDirected item)
    (found : Entries.get? "attributes" item = some (.object mark own)) :
    Merging (fun key => directiveAt key (Entries.attributes item))
      (Entries.put "attributes" (.object mark (Entries.erase directive own)) item) := by
  have same : Entries.attributes item = own := by rw [Entries.attributes, found]
  refine ⟨?_, ⟨_, by rw [Entries.orNull_put_self]; rfl⟩, fun key => ?_⟩
  · exact document.putAttributes (keyed_object.mpr ((keyed_object.mp (document.keyed.of_get? found)).erase directive))
      ((document.of_get? found).filter _)
  · rw [Entries.attributes_put, same]
    exact directiveAt_erase (same ▸ wellDirected.lists_among)

/-- An item all of whose files can be included is expanded, and no directive is left inside it. -/
theorem expandWith_includes (document : Document item) (wellDirected : WellDirected item)
    (each : ∀ name ∈ namesIncluded item, Includes reader name) (context : Text) :
    ∃ expanded, (expandWith reader context item).content = .ok expanded ∧
      ∀ key, directiveAt key (Entries.attributes expanded) = none := by
  by_cases present : ∃ mark own, Entries.get? "attributes" item = some (.object mark own)
  · obtain ⟨mark, own, found⟩ := present
    have same : Entries.attributes item = own := by rw [Entries.attributes, found]
    have named {name : Text} := mem_namesIncluded_iff document.keyed.attributes.distinct name
    rw [content_expandWith_listing fixed found (same ▸ wellDirected.lists_among)]
    obtain ⟨merged, ran, merging⟩ := mergeAll_includes fixed (fun key => (wellDirected.lists_inside key).leaf)
      (merging_start document wellDirected found)
      (fun name listed => each name (named.mpr (.inl (same.symm ▸ listed)))) (context ++ " attributes.$include")
    rw [ran, ok_bind]
    exact expandEach_includes fixed merging wellDirected.lists_inside
      (fun key name listed => each name (named.mpr (.inr ⟨key, listed⟩))) context
  · refine ⟨item, ?_, fun key => ?_⟩
    · rw [content_expandWith fixed]
      split
      · rename_i mark own found
        exact absurd ⟨mark, own, found⟩ present
      · rfl
    · unfold Entries.attributes
      split
      · rename_i mark own found
        exact absurd ⟨mark, own, found⟩ present
      · rfl

theorem expandWith_circles (document : Document item) (wellDirected : WellDirected item)
    (each : ∀ name ∈ namesIncluded item, Includes reader name ∨ Circles reader name)
    (circle : ∃ name ∈ namesIncluded item, Circles reader name) (context : Text) :
    Circular (expandWith reader context item).content := by
  have named {name : Text} := mem_namesIncluded_iff document.keyed.attributes.distinct name
  by_cases present : ∃ mark own, Entries.get? "attributes" item = some (.object mark own)
  · obtain ⟨mark, own, found⟩ := present
    have same : Entries.attributes item = own := by rw [Entries.attributes, found]
    have leaf (key : Text) := (wellDirected.lists_inside key).leaf
    have start := merging_start document wellDirected found
    have among : ∀ name ∈ listing (Entries.get? directive own), Includes reader name ∨ Circles reader name :=
      fun name listed => each name (named.mpr (.inl (same.symm ▸ listed)))
    rw [content_expandWith_listing fixed found (same ▸ wellDirected.lists_among)]
    by_cases first : ∃ name ∈ listing (Entries.get? directive own), Circles reader name
    · exact (mergeAll_circles fixed leaf start among first _).bind _
    · obtain ⟨merged, ran, merging⟩ := mergeAll_includes fixed leaf start
        (fun name listed => (among name listed).resolve_right fun here => first ⟨name, listed, here⟩)
        (context ++ " attributes.$include")
      rw [ran, ok_bind]
      obtain ⟨name, listed, here⟩ := circle
      refine expandEach_circles fixed merging wellDirected.lists_inside
        (fun key name listed => each name (named.mpr (.inr ⟨key, listed⟩))) ?_ context
      rcases named.mp listed with among | ⟨key, inside⟩
      · exact absurd ⟨name, same ▸ among, here⟩ first
      · exact ⟨key, name, inside, here⟩
  · obtain ⟨name, listed, _⟩ := circle
    have nothing : Entries.attributes item = [] := by
      unfold Entries.attributes
      split
      · rename_i mark own found
        exact absurd ⟨mark, own, found⟩ present
      · rfl
    unfold namesIncluded directives at listed
    rw [nothing] at listed
    cases listed

end Readers

end Include

end EventSchema
