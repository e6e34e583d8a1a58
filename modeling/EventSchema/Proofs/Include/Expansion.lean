import EventSchema.Proofs.Fragment
import EventSchema.Proofs.Include.Files
import EventSchema.Proofs.Value.Merge
import EventSchema.Proofs.Value.Same

/-!
Expansion as a combination by priority.

What an item says itself comes first, then each included file in the order of the directive: that is
what an expansion comes to, although it merges in place and from the back, file by file. Files are
expanded before they are merged, so the statement is a relation that goes along the included files;
it holds for every item whose files can be read and do not include one another in a circle.
-/

set_option autoImplicit false

namespace EventSchema

open Value

namespace Include

variable {tree : Tree} {places : Places}

/-! ### Included files -/

/-- What an expanded file gives to the attributes of an item that includes it: its attributes, and
those of a profile with the name of the profile. -/
def contribution (included : Fields) : Fields :=
  if Entries.get? "meta" included = some (.text "profile") then
    tag (Entries.orNull "name" included) (Entries.attributes included)
  else Entries.attributes included

/-- What an expanded file gives to an attribute that includes it: everything but its attributes. -/
def body (included : Fields) : Fields := Entries.erase "attributes" included

structure Presentable (included : Fields) : Prop where
  shape : ∀ value, Entries.get? "attributes" included = some value → value.isObject = true
  bare : Entries.get? directive included = none
  named : Entries.get? "meta" included = some (.text "profile") →
    Entries.get? "attributes" included ≠ none →
      ∃ name, Entries.get? "name" included = some name ∧ name.isObject = false

structure Includable (included : Fields) : Prop extends Presentable included where
  written : Written (.record included)

namespace Includable

variable {included : Fields}

private theorem written_contribution (includable : Includable included) :
    Written (.record (contribution included)) := by
  have attributes := includable.written.attributes
  unfold contribution
  split
  · rename_i profile
    cases present : Entries.get? "attributes" included with
    | none =>
        rw [Entries.attributes, present]
        exact written_nil
    | some value =>
        obtain ⟨name, found, shape⟩ := includable.named profile (present ▸ Option.some_ne_none _)
        have same : Entries.orNull "name" included = name := by
          rw [Entries.orNull, Entries.getOr, found, Option.getD_some]
        refine same ▸ attributes.mapValues fun value written => ?_
        cases value with
        | object mark fields =>
            obtain ⟨unmarked, inside⟩ := written_object.mp written
            exact written_object.mpr ⟨unmarked, inside.putNew (written_of_not_object shape) _⟩
        | null | bool _ | int _ | float _ | text _ | array _ => exact written
  · exact attributes

private theorem written_body (includable : Includable included) : Written (.record (body included)) :=
  includable.written.erase _

/-- The attributes of a file have a directive inside exactly where its contribution has one. -/
theorem directiveAt_contribution (included : Fields) (key : Text) :
    directiveAt key (contribution included) = directiveAt key (Entries.attributes included) := by
  unfold contribution
  split
  · exact directiveAt_tag ..
  · rfl

end Includable

/-! ### Merging one file -/

private theorem mergeOwn_of_written {included own : Fields} (written : Written (.record included))
    (whole : Written (.record own)) :
    mergeOwn (.record included) own = .ok (.record (mergeFields included own)) := by
  unfold mergeOwn
  split
  · rename_i empty
    rw [List.isEmpty_iff.mp empty, mergeFields]
  · exact congrArg (fun fields => Except.ok (Value.record fields))
      (overlay_of_plain written.plainFields whole.plainFields)

private theorem content_mergeIncluded {included own : Fields} (includable : Includable included)
    (whole : Written (.record own)) (context : Text) (item : Fields) :
    (mergeIncluded context (Entries.put "attributes" (.record own) item) included).content =
      .ok (Entries.put "attributes" (.record (mergeFields (contribution included) own)) item) := by
  have given := includable.written_contribution
  have own' : Entries.orNull "attributes" (Entries.put "attributes" (.record own) item) = .record own := by
    rw [Entries.orNull, Entries.getOr, Entries.get?_put_self, Option.getD_some]
  have finish {attributes : Fields} (written : Written (.record attributes)) :
      (do
        let present ← (Entries.orNull "attributes" (Entries.put "attributes" (.record own) item)).asFields
        return Entries.put "attributes" (← mergeOwn (.record attributes) present)
          (Entries.put "attributes" (.record own) item) : Act Fields).content =
        .ok (Entries.put "attributes" (.record (mergeFields attributes own)) item) := by
    rw [own', Act.content_lift_bind]
    change ((liftM (mergeOwn (.record attributes) own) : Act Value) >>= _).content = _
    rw [Act.content_lift_bind, mergeOwn_of_written written whole]
    exact congrArg Except.ok (Entries.put_put ..)
  unfold mergeIncluded
  rw [shiftFields_of_plain _ _ includable.written.plainFields]
  dsimp only
  cases found : Entries.get? "attributes" included with
  | none =>
      have nothing : contribution included = [] := by
        rw [contribution, Entries.attributes, found]
        exact ite_self _
      rw [nothing, mergeFields_nil_left whole.distinct]
      rfl
  | some value =>
      obtain ⟨mark, attributes, rfl⟩ := (object_or value).resolve_right
        (by rw [includable.shape value found]; exact Bool.noConfusion)
      have same : Entries.attributes included = attributes := by rw [Entries.attributes, found]
      obtain ⟨unmarked, inside⟩ := written_object.mp (includable.written.of_get? found)
      rw [unmarked]
      dsimp only
      by_cases profile : Entries.get? "meta" included = some (.text "profile")
      · obtain ⟨name, named, shape⟩ := includable.named profile (found ▸ Option.some_ne_none _)
        have nameIs : Entries.orNull "name" included = name := by
          rw [Entries.orNull, Entries.getOr, named, Option.getD_some]
        rw [contribution, if_pos profile, same, nameIs] at given ⊢
        rw [profile, named]
        dsimp only
        rw [if_pos (equals_text.mpr rfl), mark_of_not_object shape, Act.content_lift_bind]
        change (pure (record (tag name attributes)) >>= _ : Act Fields).content = _
        rw [pure_bind]
        exact finish given
      · rw [contribution, if_neg profile, same] at given ⊢
        rw [if_neg, pure_bind]
        · exact finish given
        · intro equal
          split at equal
          · rename_i sort known
            exact profile (known.trans (congrArg some (equals_text.mp equal)))
          · cases equal

/-! ### Expanding with files that can be read -/

/-- The reader gives the expanded file under the name, in whatever context, and there is no directive
left in it. -/
structure Reads (reader : Reader) (expansion : Text → Fields) (name : Text) : Prop where
  content : ∀ context, (reader name context).content = .ok (some (expansion name))
  includable : Includable (expansion name)
  settled : ∀ key, directiveAt key (Entries.attributes (expansion name)) = none

/-- Attributes with those of the files that their directive lists. -/
def middle (expansion : Text → Fields) (own : Fields) : Fields :=
  mergeUnderEach (Entries.erase directive own)
    ((listing (Entries.get? directive own)).map fun name => contribution (expansion name))

def filled (expansion : Text → Fields) : Value → Value
  | .object _ fields => .record (mergeUnderEach (Entries.erase directive fields)
      ((listing (Entries.get? directive fields)).map fun name => body (expansion name)))
  | value => value

variable {reader : Reader} {expansion : Text → Fields}

private theorem content_mergeAll_of (fixed : ∀ name context, (reader name context).Fixed tree)
    {names : List Text} (reads : ∀ name ∈ names, Reads reader expansion name) {own : Fields}
    (whole : Written (.record own)) (context : Text) (item : Fields) :
    (mergeAll reader context names (Entries.put "attributes" (.record own) item)).content =
      .ok (Entries.put "attributes" (.record (mergeUnderEach own
        (names.map fun name => contribution (expansion name)))) item) := by
  rw [content_mergeAll fixed]
  induction names generalizing own with
  | nil => rfl
  | cons name rest ih =>
      obtain ⟨here, later⟩ := List.forall_mem_cons.mp reads
      rw [List.foldlM_cons, here.content, ok_bind]
      dsimp only
      rw [content_mergeIncluded here.includable whole, ok_bind]
      exact ih later (here.includable.written_contribution.mergeFields whole)

private theorem content_mergeUnder_of (fixed : ∀ name context, (reader name context).Fixed tree)
    {names : List Text} (reads : ∀ name ∈ names, Reads reader expansion name) (context : Text)
    (fields : Fields) :
    (mergeUnder reader context names (.record fields)).content =
      .ok (.record (mergeUnderEach fields (names.map fun name => body (expansion name)))) := by
  rw [content_mergeUnder fixed]
  induction names generalizing fields with
  | nil => rfl
  | cons name rest ih =>
      obtain ⟨here, later⟩ := List.forall_mem_cons.mp reads
      rw [List.foldlM_cons, here.content, ok_bind]
      dsimp only
      rw [record, record, merge_object]
      exact ih later _

private theorem content_expandAttribute_of (fixed : ∀ name context, (reader name context).Fixed tree)
    {value : Value} (written : Written value)
    (directed : ∀ fields given, value = .record fields → Entries.get? directive fields = some given →
      ∃ names, names? given = some names)
    (reads : ∀ fields, value = .record fields → ∀ name ∈ listing (Entries.get? directive fields),
      Reads reader expansion name) (context name : Text) :
    (expandAttribute reader context name value).content = .ok (filled expansion value) := by
  rcases object_or value with ⟨mark, fields, rfl⟩ | shape
  · obtain ⟨unmarked, inside⟩ := written_object.mp written
    subst unmarked
    rw [content_expandAttribute fixed, filled]
    cases given : Entries.get? directive fields with
    | none => exact congrArg (fun same => Except.ok (Value.record same)) (Entries.erase_of_absent given).symm
    | some value =>
        obtain ⟨names, lists⟩ := directed fields value rfl given
        have same : listing (some value) = names := by
          rw [listing, Option.bind_some, lists, Option.getD_some]
        have each := reads fields rfl
        rw [given, same] at each
        dsimp only
        rw [fileNames_of_names? lists, ok_bind, same]
        exact content_mergeUnder_of fixed each _ _
  · cases value with
    | object mark fields => cases shape
    | null | bool _ | int _ | float _ | text _ | array _ => rfl

private theorem expandEach_of (fixed : ∀ name context, (reader name context).Fixed tree) {attributes : Fields}
    (written : Written (.record attributes))
    (directed : ∀ key given, directiveAt key attributes = some given → ∃ names, names? given = some names)
    (reads : ∀ key, ∀ name ∈ listing (directiveAt key attributes), Reads reader expansion name)
    (context : Text) (item : Fields) :
    expandEach reader context (Entries.put "attributes" (.record attributes) item) =
      .ok (Entries.put "attributes" (.record (Entries.mapValues (filled expansion) attributes)) item) := by
  have each : ∀ entry ∈ attributes, (do
      return (entry.1, ← (expandAttribute reader context entry.1 entry.2).content) :
        Except Fault (Text × Value)) = .ok (entry.1, filled expansion entry.2) := by
    intro entry member
    have here (fields : Fields) (same : entry.2 = .record fields) :
        directiveAt entry.1 attributes = Entries.get? directive fields := by
      rw [directiveAt, Entries.get?_of_mem written.distinct member, same]
      rfl
    rw [content_expandAttribute_of fixed (written.of_mem member)
      (fun fields given same found => directed entry.1 given ((here fields same).trans found))
      (fun fields same name listed => reads entry.1 name (here fields same ▸ listed)), ok_bind]
    rfl
  unfold expandEach
  rw [Entries.orNull, Entries.getOr, Entries.get?_put_self, Option.getD_some]
  change (attributes.mapM _ >>= _ : Except Fault Fields) = _
  rw [mapM_ok_map each, ok_bind, Entries.put_put]
  rfl

/-- A source without a directive inside its attributes brings none into those of others. -/
theorem directiveAt_mergeFields {key : Text} {source merged : Fields}
    (whole : Written (.record merged)) (silent : directiveAt key source = none) :
    directiveAt key (mergeFields source merged) = directiveAt key merged := by
  unfold directiveAt at silent ⊢
  rw [get?_mergeFields key source whole.distinct]
  cases found : Entries.get? key merged with
  | none =>
      dsimp only
      exact silent
  | some value =>
      cases old : Entries.get? key source with
      | none => rfl
      | some before =>
          rw [old] at silent
          dsimp only at silent ⊢
          rcases object_or value with ⟨mark, fields, rfl⟩ | shape
          · rcases object_or before with ⟨own, base, rfl⟩ | apart
            · have inside := (written_object.mp (whole.of_get? found)).2
              rw [merge_object]
              dsimp only at silent ⊢
              rw [get?_mergeFields directive base inside.distinct, silent]
              cases Entries.get? directive fields <;> rfl
            · rw [merge_apart (Or.inl apart)]
          · rw [merge_apart (Or.inr shape)]

private theorem directiveAt_mergeUnderEach {key : Text} {first : Fields} {sources : List Fields}
    (whole : Written (.record first)) (each : ∀ source ∈ sources, Written (.record source))
    (silent : ∀ source ∈ sources, directiveAt key source = none) :
    directiveAt key (mergeUnderEach first sources) = directiveAt key first := by
  induction sources generalizing first with
  | nil => rfl
  | cons source later ih =>
      obtain ⟨own, others⟩ := List.forall_mem_cons.mp each
      obtain ⟨here, there⟩ := List.forall_mem_cons.mp silent
      exact (ih (own.mergeFields whole) others there).trans (directiveAt_mergeFields whole here)

theorem directiveAt_erase {own : Fields} {key : Text}
    (directed : ∀ given, Entries.get? directive own = some given → ∃ names, names? given = some names) :
    directiveAt key (Entries.erase directive own) = directiveAt key own := by
  unfold directiveAt
  rw [Entries.get?_erase]
  by_cases same : key = directive
  · rw [if_pos same, same]
    cases found : Entries.get? directive own with
    | none => rfl
    | some given =>
        obtain ⟨names, lists⟩ := directed given found
        have shape := not_object_of_names? lists
        cases given with
        | object mark fields => cases shape
        | null | bool _ | int _ | float _ | text _ | array _ => rfl
  · rw [if_neg same]

/-- Files that are included among the attributes leave the directives inside them as they are. -/
theorem directiveAt_middle {own : Fields} (written : Written (.record own))
    (directed : ∀ given, Entries.get? directive own = some given → ∃ names, names? given = some names)
    (reads : ∀ name ∈ listing (Entries.get? directive own), Reads reader expansion name) (key : Text) :
    directiveAt key (middle expansion own) = directiveAt key own := by
  have silent : ∀ source ∈ (listing (Entries.get? directive own)).map
      (fun name => contribution (expansion name)),
      Written (.record source) ∧ directiveAt key source = none := by
    intro source member
    obtain ⟨name, listed, same⟩ := List.mem_map.mp member
    rw [← same, Includable.directiveAt_contribution]
    exact ⟨(reads name listed).includable.written_contribution, (reads name listed).settled key⟩
  exact (directiveAt_mergeUnderEach (written.erase _) (fun source member => (silent source member).1)
    fun source member => (silent source member).2).trans (directiveAt_erase directed)

private theorem written_middle {own : Fields} (written : Written (.record own))
    (reads : ∀ name ∈ listing (Entries.get? directive own), Reads reader expansion name) :
    Written (.record (middle expansion own)) := by
  refine written_mergeUnderEach (written.erase _) fun source member => ?_
  obtain ⟨name, listed, shape⟩ := List.mem_map.mp member
  exact shape ▸ (reads name listed).includable.written_contribution

def expanded (expansion : Text → Fields) (item : Fields) : Fields :=
  match Entries.get? "attributes" item with
  | some (.object _ own) =>
    Entries.put "attributes" (.record (Entries.mapValues (filled expansion) (middle expansion own))) item
  | _ => item

private theorem content_expandWith_of (fixed : ∀ name context, (reader name context).Fixed tree)
    {item : Fields} (written : Written (.record item)) (directed : WellDirected item)
    (reads : ∀ name ∈ namesIncluded item, Reads reader expansion name) (context : Text) :
    (expandWith reader context item).content = .ok (expanded expansion item) := by
  rw [content_expandWith fixed, expanded]
  cases found : Entries.get? "attributes" item with
  | none => rfl
  | some value =>
      rcases object_or value with ⟨mark, own, rfl⟩ | shape
      · obtain ⟨unmarked, whole⟩ := written_object.mp (written.of_get? found)
        subst unmarked
        have same : Entries.attributes item = own := by rw [Entries.attributes, found]
        have amongOwn : ∀ given, Entries.get? directive own = some given →
            ∃ names, names? given = some names :=
          fun given known => directed.names (mem_directives_among (same.symm ▸ known))
        have insideOwn : ∀ key given, directiveAt key own = some given →
            ∃ names, names? given = some names :=
          fun key given known => directed.names (mem_directives_inside (same.symm ▸ known))
        have listedReads : ∀ name ∈ listing (Entries.get? directive own), Reads reader expansion name :=
          fun name listed => reads name (mem_namesIncluded (fun given known =>
            mem_directives_among (same.symm ▸ known)) listed)
        have kept := directiveAt_middle whole amongOwn listedReads
        have finish (item : Fields) : expandEach reader context
            (Entries.put "attributes" (.record (middle expansion own)) item) =
              .ok (Entries.put "attributes"
                (.record (Entries.mapValues (filled expansion) (middle expansion own))) item) := by
          exact expandEach_of fixed (written_middle whole listedReads)
            (fun key given known => insideOwn key given (kept key ▸ known))
            (fun key name listed => reads name (mem_namesIncluded (fun given known =>
              mem_directives_inside (same.symm ▸ kept key ▸ known)) listed)) context item
        dsimp only
        cases given : Entries.get? directive own with
        | none =>
            have unchanged : middle expansion own = own := by
              rw [middle, given]
              exact Entries.erase_of_absent given
            have present : Entries.get? "attributes" item = some (.record own) := found
            have result := finish item
            rw [unchanged, Entries.put_of_get? present] at result
            rw [unchanged]
            exact result
        | some value =>
            obtain ⟨names, lists⟩ := amongOwn value given
            have same : listing (some value) = names := by
              rw [listing, Option.bind_some, lists, Option.getD_some]
            rw [given, same] at listedReads
            have joined := content_mergeAll_of fixed listedReads (whole.erase directive)
              (context ++ " attributes.$include") item
            dsimp only
            rw [fileNames_of_names? lists, ok_bind, ← record, joined, ok_bind]
            have result := finish item
            rw [middle, given, same] at result ⊢
            exact result
      · cases value with
        | object mark fields => cases shape
        | null | bool _ | int _ | float _ | text _ | array _ => rfl

private theorem get?_mergeUnderEach_eq_none {key : Text} {first : Fields} {sources : List Fields}
    (absent : Entries.get? key first = none)
    (each : ∀ source ∈ sources, Entries.get? key source = none) :
    Entries.get? key (mergeUnderEach first sources) = none := by
  induction sources generalizing first with
  | nil => exact absent
  | cons source later ih =>
      obtain ⟨own, others⟩ := List.forall_mem_cons.mp each
      exact ih (get?_mergeFields_eq_none.mpr ⟨own, absent⟩) others

/-! ### What an expansion is -/

/-- An attribute with files included under it: what it says itself comes first, then each file in the
order of the directive. What is no object stays as it is. -/
def Fills (files : List Fields) : Value → Value → Prop
  | .object _ fields, result => ∃ whole, result = .record whole ∧
      Combines (Entries.erase directive fields :: files.map body) whole
  | value, result => result = value

/-- What an item comes to when everything that it includes is expanded. The files are found under
their names, each is expanded itself, and the attributes are those of the item combined with what the
files contribute, each of them combined with the files of the directive that the item has inside it.
Nothing but the attributes changes. -/
inductive Expansion (tree : Tree) (places : Places) : Fields → Fields → Prop
  | plain {item : Fields} (bare : ∀ mark own, Entries.get? "attributes" item ≠ some (.object mark own)) :
      Expansion tree places item item
  | merged {item whole own middle results : Fields} {mark : Option Nat} {paths : Text → Path}
      {fragments expansions : Text → Fields}
      (found : ∀ name ∈ namesIncluded item, (find tree places name).content = .ok (paths name, fragments name))
      (expands : ∀ name ∈ namesIncluded item, Expansion tree places (fragments name) (expansions name))
      (given : Entries.get? "attributes" item = some (.object mark own))
      (among : Combines (Entries.erase directive own ::
        (listing (Entries.get? directive own)).map fun name => contribution (expansions name)) middle)
      (inside : Entries.Related (fun key value result =>
        Fills ((listing (directiveAt key own)).map expansions) value result) middle results)
      (written : Entries.get? "attributes" whole = some (.record results))
      (frame : ∀ field : Text, field ≠ "attributes" → Entries.get? field whole = Entries.get? field item) :
      Expansion tree places item whole

private theorem fills_filled {attributes : Fields} {key : Text} {value : Value}
    (written : Written (.record attributes)) (found : Entries.get? key attributes = some value)
    (reads : ∀ name ∈ listing (directiveAt key attributes), Reads reader expansion name) :
    Written (filled expansion value) ∧
      Fills ((listing (directiveAt key attributes)).map expansion) value (filled expansion value) := by
  unfold directiveAt at reads ⊢
  rw [found] at reads ⊢
  cases value with
  | object mark fields =>
      have inside := (written_object.mp (written.of_get? found)).2
      have each : ∀ source ∈ (listing (Entries.get? directive fields)).map fun name => body (expansion name),
          Written (.record source) := by
        intro source member
        obtain ⟨name, listed, shape⟩ := List.mem_map.mp member
        exact shape ▸ (reads name listed).includable.written_body
      refine ⟨written_mergeUnderEach (inside.erase _) each, _, rfl, ?_⟩
      rw [List.map_map]
      exact combines_mergeUnderEach (inside.erase _) each
  | null | bool _ | int _ | float _ | text _ | array _ => exact ⟨written_of_not_object rfl, rfl⟩

/-- A filled attribute has no directive, since no file has one beside its attributes. -/
theorem directive_filled {attributes : Fields} {key : Text}
    (reads : ∀ name ∈ listing (directiveAt key attributes), Reads reader expansion name) :
    directiveAt key (Entries.mapValues (filled expansion) attributes) = none := by
  unfold directiveAt at reads ⊢
  rw [Entries.get?_mapValues]
  cases found : Entries.get? key attributes with
  | none => rfl
  | some value =>
      rw [found] at reads
      cases value with
      | object mark fields =>
          dsimp only at reads
          change Entries.get? directive (mergeUnderEach _ _) = none
          refine get?_mergeUnderEach_eq_none ?_ fun source member => ?_
          · rw [Entries.get?_erase, if_pos rfl]
          · obtain ⟨name, listed, shape⟩ := List.mem_map.mp member
            rw [← shape, body, Entries.get?_erase, if_neg (by decide)]
            exact (reads name listed).includable.bare
      | null | bool _ | int _ | float _ | text _ | array _ => rfl

structure Legible (tree : Tree) (places : Places) (item : Fields) : Prop where
  directed : WellDirected item
  readable : ∀ name ∈ namesIncluded item,
    ∃ path fragment, (find tree places name).content = .ok (path, fragment)

private theorem get?_expanded {field : Text} (other : field ≠ "attributes") (item : Fields) :
    Entries.get? field (expanded expansion item) = Entries.get? field item := by
  unfold expanded
  split
  · rw [Entries.get?_put, if_neg other]
  · rfl

section Expanded

variable {item own : Fields} {mark : Option Nat} (written : Written (.record item))
  (directed : WellDirected item) (reads : ∀ name ∈ namesIncluded item, Reads reader expansion name)
  (given : Entries.get? "attributes" item = some (.object mark own))
include written directed reads given

/-- What an item with attributes has to say about them: they are a document, files that its directives
list are read, and those that come in under the attributes change no directive inside them. -/
theorem attributes_ready : Written (.record own) ∧
    (∀ name ∈ listing (Entries.get? directive own), Reads reader expansion name) ∧
      ∀ key, directiveAt key (middle expansion own) = directiveAt key own ∧
        ∀ name ∈ listing (directiveAt key own), Reads reader expansion name := by
  have same : Entries.attributes item = own := by rw [Entries.attributes, given]
  have whole := same ▸ written.attributes
  have listed : ∀ name ∈ listing (Entries.get? directive own), Reads reader expansion name :=
    fun name listed => reads name (mem_namesIncluded (fun given known =>
            mem_directives_among (same.symm ▸ known)) listed)
  exact ⟨whole, listed, fun key => ⟨directiveAt_middle whole (fun given known =>
    directed.names (mem_directives_among (same.symm ▸ known))) listed key,
    fun name inside => reads name (mem_namesIncluded (fun given known =>
      mem_directives_inside (same.symm ▸ known)) inside)⟩⟩

private theorem fills_middle : ∀ entry ∈ middle expansion own, Written (filled expansion entry.2) ∧
    Fills ((listing (directiveAt entry.1 own)).map expansion) entry.2 (filled expansion entry.2) := by
  obtain ⟨whole, listed, inside⟩ := attributes_ready written directed reads given
  intro entry member
  obtain ⟨same, each⟩ := inside entry.1
  rw [← same] at each ⊢
  have between := written_middle whole listed
  exact fills_filled between (Entries.get?_of_mem between.distinct member) each

private theorem written_expanded : Written (.record (expanded expansion item)) := by
  obtain ⟨whole, listed, _⟩ := attributes_ready written directed reads given
  have each := fills_middle written directed reads given
  rw [expanded, given]
  refine written.put (written_record.mpr ⟨(written_middle whole listed).distinct.mapValues _, ?_⟩) _
  intro entry member
  obtain ⟨value, known, same⟩ := List.mem_map.mp member
  exact same ▸ (each value known).1

private theorem expansion_expanded {paths : Text → Path} {fragments : Text → Fields}
    (found : ∀ name ∈ namesIncluded item, (find tree places name).content = .ok (paths name, fragments name))
    (expands : ∀ name ∈ namesIncluded item, Expansion tree places (fragments name) (expansion name)) :
    Expansion tree places item (expanded expansion item) := by
  obtain ⟨whole, listed, _⟩ := attributes_ready written directed reads given
  have each := fills_middle written directed reads given
  refine .merged found expands given (combines_mergeUnderEach (whole.erase _) fun source member => ?_)
    (Entries.related_mapValues fun entry member => (each entry member).2) ?_
    fun field other => get?_expanded other item
  · obtain ⟨name, known, shape⟩ := List.mem_map.mp member
    exact shape ▸ (listed name known).includable.written_contribution
  · rw [expanded, given, Entries.get?_put_self]
    rfl

private theorem settled_expanded (key : Text) :
    directiveAt key (Entries.attributes (expanded expansion item)) = none := by
  obtain ⟨_, _, inside⟩ := attributes_ready written directed reads given
  obtain ⟨same, each⟩ := inside key
  rw [expanded, given, Entries.attributes_put_record]
  exact directive_filled (same ▸ each)

end Expanded

private theorem expanded_of_bare {item : Fields}
    (bare : ∀ mark own, Entries.get? "attributes" item ≠ some (.object mark own)) :
    expanded expansion item = item := by
  unfold expanded
  split
  · rename_i found
    exact absurd found (bare _ _)
  · rfl

theorem Presentable.expanded {item : Fields} (presentable : Presentable item) :
    Presentable (expanded expansion item) := by
  by_cases present : ∃ mark own, Entries.get? "attributes" item = some (.object mark own)
  · obtain ⟨mark, own, given⟩ := present
    refine ⟨fun value found => ?_, ?_, fun profile _ => ?_⟩
    · rw [Include.expanded, given, Entries.get?_put_self] at found
      exact Option.some.inj found ▸ rfl
    · rw [get?_expanded (by decide)]
      exact presentable.bare
    · rw [get?_expanded (by decide)] at profile ⊢
      exact presentable.named profile (given ▸ Option.some_ne_none _)
  · rw [expanded_of_bare fun mark own given => present ⟨mark, own, given⟩]
    exact presentable

/-- Once the files of an item are read, its expansion is what an expansion has to be, a document, and
free of directives. -/
theorem expanded_spec {item : Fields} (written : Written (.record item)) (directed : WellDirected item)
    (reads : ∀ name ∈ namesIncluded item, Reads reader expansion name) {paths : Text → Path}
    {fragments : Text → Fields}
    (found : ∀ name ∈ namesIncluded item, (find tree places name).content = .ok (paths name, fragments name))
    (expands : ∀ name ∈ namesIncluded item, Expansion tree places (fragments name) (expansion name)) :
    Expansion tree places item (expanded expansion item) ∧ Written (.record (expanded expansion item)) ∧
      ∀ key, directiveAt key (Entries.attributes (expanded expansion item)) = none := by
  by_cases present : ∃ mark own, Entries.get? "attributes" item = some (.object mark own)
  · obtain ⟨mark, own, given⟩ := present
    exact ⟨expansion_expanded written directed reads given found expands,
      written_expanded written directed reads given, settled_expanded written directed reads given⟩
  · have bare : ∀ mark own, Entries.get? "attributes" item ≠ some (.object mark own) :=
      fun mark own given => present ⟨mark, own, given⟩
    rw [expanded_of_bare bare]
    refine ⟨.plain bare, written, fun key => ?_⟩
    have nothing : Entries.attributes item = [] := by
      unfold Entries.attributes
      split
      · rename_i known
        exact absurd known (bare _ _)
      · rfl
    rw [nothing]
    rfl

/-- An item that can be expanded: it and the files that it includes are documents without shared
objects, every file that is listed anywhere can be read and may be included, and none includes
itself. -/
structure Expandable (tree : Tree) (places : Places) (item : Fields) : Prop
    extends Legible tree places item where
  rooted : ∃ entries, tree.root = .folder entries
  written : Written (.record item)
  reached : ∀ path fragment, Reached tree places item path fragment →
    Legible tree places fragment ∧ Presentable fragment
  simple : ∀ path fragment, Reached tree places item path fragment → ∀ document,
    Fragment.readObject tree path = .ok document → Fragment.SimplyAnnotated document
  acyclic : ∀ path fragment other, Reached tree places item path fragment →
    ¬Reached tree places fragment path other

private theorem Expandable.of_names {item fragment : Fields} {name : Text} {path : Path}
    (expandable : Expandable tree places item) (listed : name ∈ namesIncluded item)
    (found : (find tree places name).content = .ok (path, fragment)) :
    Expandable tree places fragment where
  toLegible := (expandable.reached path fragment (.direct listed found)).1
  rooted := expandable.rooted
  written := by
    obtain ⟨entries, rooted⟩ := expandable.rooted
    exact Fragment.written_ofFile (expandable.simple path fragment (.direct listed found))
      (find_ok rooted found).2
  reached _ _ further := expandable.reached _ _ (.through listed found further)
  simple _ _ further := expandable.simple _ _ (.through listed found further)
  acyclic _ _ _ further := expandable.acyclic _ _ _ (.through listed found further)

/-- Items that can be expanded are. The induction is on the files that are not being expanded yet:
each one entered leaves fewer. -/
theorem expandWith_expansion {item : Fields} (expandable : Expandable tree places item)
    (stack : List Path) (fresh : ∀ path fragment, Reached tree places item path fragment → path ∉ stack) :
    ∃ expansion : Text → Fields,
      (∀ context, (expandWith (read tree places stack) context item).content =
        .ok (expanded expansion item)) ∧ Expansion tree places item (expanded expansion item) ∧
      Written (.record (expanded expansion item)) ∧
        ∀ key, directiveAt key (Entries.attributes (expanded expansion item)) = none := by
  have each (name : Text) (listed : name ∈ namesIncluded item) : ∃ path fragment expansion,
      (find tree places name).content = .ok (path, fragment) ∧
        Expansion tree places fragment expansion ∧
          Reads (read tree places stack) (fun _ => expansion) name := by
    obtain ⟨path, fragment, found⟩ := expandable.readable name listed
    obtain ⟨entries, rooted⟩ := expandable.rooted
    have here : Reached tree places item path fragment := .direct listed found
    have entered := fresh path fragment here
    have present := (find_ok rooted found).1
    have outside : ∀ other last, Reached tree places fragment other last → other ∉ stack ++ [path] := by
      intro other last further member
      rcases List.mem_append.mp member with before | last'
      · exact fresh other last (.through listed found further) before
      · exact expandable.acyclic path fragment last here (List.mem_singleton.mp last' ▸ further)
    obtain ⟨expansion, content, expands, whole, settled⟩ :=
      expandWith_expansion (expandable.of_names listed found) (stack ++ [path]) outside
    have presentable := (expandable.reached path fragment here).2
    refine ⟨path, fragment, _, found, expands, fun context => ?_, ⟨presentable.expanded, whole⟩, settled⟩
    rw [content_read_of_find rooted found entered, content]
    rfl
  choose! paths fragments expansion found expands each using each
  have reads : ∀ name ∈ namesIncluded item, Reads (read tree places stack) expansion name :=
    fun name listed => ⟨(each name listed).content, (each name listed).includable,
      (each name listed).settled⟩
  have directed := expandable.directed
  exact ⟨expansion, content_expandWith_of (fixed_read places stack) expandable.written directed reads,
    expanded_spec expandable.written directed reads found expands⟩
termination_by ((candidates tree).filter (· ∉ stack)).length
decreasing_by exact remaining_lt present entered

/-- An expansion succeeds from every run, and it is a combination by priority: what the item says comes
before what it includes, and what is included first comes before what is included later. -/
theorem expand_expansion {item : Fields} (expandable : Expandable tree places item)
    {origin : Option Path} {stack : List Path} (opened : outermost tree origin = .ok stack)
    (outside : ∀ path fragment, Reached tree places item path fragment → path ∉ stack) (context : Text) :
    ∃ whole, Expansion tree places item whole ∧ ∀ run, run.Faithful tree →
      ((expand tree places context origin item).outcome run).1 = .ok whole := by
  obtain ⟨expansion, content, expands, _⟩ := expandWith_expansion expandable stack outside
  refine ⟨_, expands, fun run faithful => ?_⟩
  rw [(fixed_expand places context origin item run faithful).1, content_expand, opened]
  exact content context

/-- Where names are looked up if the schema is at the top of the tree. -/
def atTop : Places := .schema ("/" : Text)

def hostFields : Fields :=
  [("meta", .text "profile"), ("name", .text "host"),
    ("attributes", .record [("a", .record [(directive, .text "enums/c.json")]), ("b", .record [])])]

def constantFields : Fields := [("enum", .record [("1", .record [])])]

/-- A profile that includes constants inside one of its attributes, and the file of the constants. -/
def profileWithConstants : Tree where
  root := .folder [("host.json", .spelling hostFields),
    ("enums", .folder [("c.json", .spelling constantFields)])]
  directory := []

def hostPath : Path := ⟨.top, ["host.json"]⟩

def constantPath : Path := ⟨.top, ["enums", "c.json"]⟩

/-- An item that includes the profile among its attributes. -/
def includingProfile : Fields :=
  [("attributes", .record [(directive, .text "host.json"), ("a", .record [("caption", .text "A")])])]

private theorem find_host : (find profileWithConstants atTop "host.json").content = .ok (hostPath, hostFields) :=
  toOption_eq_some.mp (by decide +kernel)

private theorem find_constant :
    (find profileWithConstants atTop "enums/c.json").content = .ok (constantPath, constantFields) :=
  toOption_eq_some.mp (by decide +kernel)

private theorem not_reached_constant {path : Path} {fragment : Fields} :
    ¬Reached profileWithConstants atTop constantFields path fragment := by
  have nothing : namesIncluded constantFields = [] := by decide
  rintro (⟨listed, _⟩ | ⟨listed, _, _⟩)
  · rw [nothing] at listed
    cases listed
  · rw [nothing] at listed
    cases listed

private theorem reached_host {path : Path} {fragment : Fields}
    (reached : Reached profileWithConstants atTop hostFields path fragment) :
    path = constantPath ∧ fragment = constantFields := by
  have only : namesIncluded hostFields = ["enums/c.json"] := by decide
  cases reached with
  | direct listed found =>
      rw [only] at listed
      rw [List.mem_singleton.mp listed, find_constant] at found
      cases found
      exact ⟨rfl, rfl⟩
  | through listed found further =>
      rw [only] at listed
      rw [List.mem_singleton.mp listed, find_constant] at found
      cases found
      exact absurd further not_reached_constant

private theorem reached_includingProfile {path : Path} {fragment : Fields}
    (reached : Reached profileWithConstants atTop includingProfile path fragment) :
    (path = hostPath ∧ fragment = hostFields) ∨ path = constantPath ∧ fragment = constantFields := by
  have only : namesIncluded includingProfile = ["host.json"] := by decide
  cases reached with
  | direct listed found =>
      rw [only] at listed
      rw [List.mem_singleton.mp listed, find_host] at found
      cases found
      exact Or.inl ⟨rfl, rfl⟩
  | through listed found further =>
      rw [only] at listed
      rw [List.mem_singleton.mp listed, find_host] at found
      cases found
      exact Or.inr (reached_host further)

private theorem expandable_includingProfile : Expandable profileWithConstants atTop includingProfile where
  directed := by decide
  readable name listed := by
    have only : namesIncluded includingProfile = ["host.json"] := by decide
    rw [only] at listed
    exact List.mem_singleton.mp listed ▸ ⟨_, _, find_host⟩
  rooted := ⟨_, rfl⟩
  written := by decide
  reached path fragment reached := by
    rcases reached_includingProfile reached with ⟨rfl, rfl⟩ | ⟨rfl, rfl⟩
    · refine ⟨⟨by decide, fun name listed => ?_⟩, ⟨?_, by decide, fun _ _ => ⟨_, rfl, rfl⟩⟩⟩
      · have only : namesIncluded hostFields = ["enums/c.json"] := by decide
        rw [only] at listed
        exact List.mem_singleton.mp listed ▸ ⟨_, _, find_constant⟩
      · rintro value ⟨⟩
        rfl
    · refine ⟨⟨by decide, fun name listed => ?_⟩, ⟨?_, by decide, ?_⟩⟩
      · have nothing : namesIncluded constantFields = [] := by decide
        rw [nothing] at listed
        cases listed
      · rintro value ⟨⟩
      · rintro ⟨⟩
  simple path fragment reached document read := by
    rcases reached_includingProfile reached with ⟨rfl, rfl⟩ | ⟨rfl, rfl⟩
    · have known : Fragment.readObject profileWithConstants hostPath = .ok hostFields :=
        toOption_eq_some.mp (by decide +kernel)
      rw [known] at read
      cases read
      rintro _ _ ⟨⟩
    · have known : Fragment.readObject profileWithConstants constantPath = .ok constantFields :=
        toOption_eq_some.mp (by decide +kernel)
      rw [known] at read
      cases read
      rintro _ _ ⟨⟩
  acyclic path fragment other reached again := by
    rcases reached_includingProfile reached with ⟨rfl, rfl⟩ | ⟨rfl, rfl⟩
    · exact absurd (reached_host again).1 (by decide)
    · exact absurd again not_reached_constant

theorem expand_expansion_includingProfile :
    Expandable profileWithConstants atTop includingProfile ∧
      ∃ whole after, Expansion profileWithConstants atTop includingProfile whole ∧
        (expand profileWithConstants atTop "test" none includingProfile).outcome {} = (.ok whole, after) := by
  have opened : outermost profileWithConstants none = .ok [] := rfl
  obtain ⟨whole, expands, comes⟩ := expand_expansion expandable_includingProfile opened
    (fun _ _ _ impossible => by cases impossible) "test"
  exact ⟨expandable_includingProfile, whole, _, expands,
    Prod.ext (comes {} (Run.faithful_start _)) rfl⟩

/-- A profile whose name is an object, which all its attributes then share. -/
def namedByObject : Fields :=
  [("meta", .text "profile"), ("name", .record [("x", .int 1)]),
    ("attributes", .record [("a", .record []), ("b", .record [])])]

def profileNamedByObject : Tree where
  root := .folder [("p.json", .spelling namedByObject)]
  directory := []

/-- What an item says itself when it includes that profile. -/
def ownProfile : Fields :=
  [(directive, .text "p.json"), ("a", .record [("profile", .record [("y", .int 2)])])]

/-- What the item comes to: the two attributes share the name. -/
def sharedProfile : Fields :=
  [("attributes", .record [("a", .record [("profile", .object (some 0) [("x", .int 1), ("y", .int 2)])]),
    ("b", .record [("profile", .object (some 0) [("x", .int 1), ("y", .int 2)])])])]

/-- What the item says of its own attribute shows at the other one, which it does not mention. -/
theorem expand_shares_profile_name :
    (find profileNamedByObject atTop "p.json").content = .ok (⟨.top, ["p.json"]⟩, namedByObject) ∧
      ∃ whole, (expand profileNamedByObject atTop "test" none
        [("attributes", .record ownProfile)]).Yields whole ∧
          ¬Combines [Entries.erase directive ownProfile, contribution namedByObject]
            (Entries.attributes whole) := by
  have evaluated : ((expand profileNamedByObject atTop "test" none
      [("attributes", .record ownProfile)]).outcome {}).1.toOption.map id = some sharedProfile := by
    decide +kernel
  obtain ⟨whole, yields, same⟩ := Act.exists_of_outcome evaluated
  refine ⟨toOption_eq_some.mp (by decide +kernel), whole, yields, fun combines => ?_⟩
  have whole' : whole = sharedProfile := same
  have here := combines ["b", "profile", "y"]
  rw [whole'] at here
  cases here

end Include

end EventSchema
