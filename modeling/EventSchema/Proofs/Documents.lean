import EventSchema.Proofs.Compilation
import EventSchema.Proofs.Include.Directives
import EventSchema.Proofs.Sources
import EventSchema.Proofs.Value.Keyed
import EventSchema.Proofs.Value.Single

/-!
What is read and merged stays a document.

No object of a document has a key twice, and each attribute of an item is in one place. Filling in
annotations, expanding directives, scanning folders, preparing contributions, merging and patching all
keep it so, and no item comes twice under one key or without a name. So the definitions that a
compilation builds its graph of are documents again.
-/

set_option autoImplicit false

namespace EventSchema

open Value

variable {tree : Tree}

structure Document (item : Fields) : Prop where
  keyed : Keyed (.record item)
  single : SingleEach (Entries.attributes item)

namespace Document

variable {item : Fields} {key : Text}

theorem put {value : Value} (document : Document item) (given : Keyed value)
    (other : key ≠ "attributes") : Document (Entries.put key value item) where
  keyed := document.keyed.put given key
  single := by
    rw [Entries.attributes_put_of_ne other]
    exact document.single

theorem putAttributes {attributes : Value} (document : Document item) (given : Keyed attributes)
    (each : SingleEach attributes.inner) : Document (Entries.put "attributes" attributes item) where
  keyed := document.keyed.put given _
  single := by
    rw [Entries.attributes_eq_inner, Entries.orEmpty_put_self]
    exact each

private theorem orEmpty_inner (document : Document item) :
    SingleEach (Entries.orEmpty "attributes" item).inner := by
  rw [← Entries.attributes_eq_inner]
  exact document.single

theorem of_get? {attributes : Value} (document : Document item)
    (found : Entries.get? "attributes" item = some attributes) : SingleEach attributes.inner := by
  have each := document.orEmpty_inner
  rwa [Entries.orEmpty, Entries.getOr, found, Option.getD_some] at each

end Document

structure DocumentEach (items : Entries Fields) : Prop where
  keys : Entries.Distinct items
  named : ∀ entry ∈ items, (Value.text entry.1).truthy = true
  each : ∀ entry ∈ items, Document entry.2

namespace DocumentEach

variable {items : Entries Fields}

theorem nil : DocumentEach [] := ⟨.nil, List.forall_mem_nil _, List.forall_mem_nil _⟩

theorem of_get? (documents : DocumentEach items) {key : Text} {item : Fields}
    (found : Entries.get? key items = some item) : Document item :=
  documents.each _ (Entries.mem_of_get? found)

theorem put (documents : DocumentEach items) {key : Text} (named : (Value.text key).truthy = true)
    {item : Fields} (given : Document item) : DocumentEach (Entries.put key item items) := by
  refine ⟨documents.keys.put key item, fun entry member => ?_, fun entry member => ?_⟩
  · rcases Entries.mem_of_mem_put member with written | before
    · exact written ▸ named
    · exact documents.named entry before
  · rcases Entries.mem_of_mem_put member with written | before
    · exact written ▸ given
    · exact documents.each entry before

theorem mapValues (documents : DocumentEach items) {change : Fields → Fields}
    (kept : ∀ item, Document item → Document (change item)) :
    DocumentEach (Entries.mapValues change items) := by
  refine ⟨documents.keys.mapValues change, fun entry member => ?_, fun entry member => ?_⟩
  · obtain ⟨origin, known, rfl⟩ := List.mem_map.mp member
    exact documents.named origin known
  · obtain ⟨origin, known, rfl⟩ := List.mem_map.mp member
    exact kept _ (documents.each origin known)

theorem related (documents : DocumentEach items) {relation : Text → Fields → Fields → Prop}
    {results : Entries Fields} (treated : Entries.Related relation items results)
    (kept : ∀ key item result, relation key item result → Document item → Document result) :
    DocumentEach results := by
  refine ⟨treated.distinct documents.keys, fun entry member => ?_, fun entry member => ?_⟩
  · obtain ⟨origin, known, _⟩ := treated.mem_right member
    exact documents.named (entry.1, origin) known
  · obtain ⟨origin, known, step⟩ := treated.mem_right member
    exact kept _ _ _ step (documents.each _ known)

theorem record (documents : DocumentEach items) :
    Keyed (.record (Entries.mapValues Value.record items)) := by
  refine keyed_record.mpr ⟨documents.keys.mapValues _, fun entry member => ?_⟩
  obtain ⟨origin, known, rfl⟩ := List.mem_map.mp member
  exact (documents.each origin known).keyed

end DocumentEach

/-! ### Fragments -/

namespace Fragment

private theorem keyed_fill {annotations fields : Fields} (given : ∀ entry ∈ annotations, Keyed entry.2)
    (keyed : Keyed (.record fields)) : Keyed (.record (fill annotations fields)) := by
  unfold fill
  induction annotations generalizing fields with
  | nil => exact keyed
  | cons head rest ih =>
      obtain ⟨own, others⟩ := List.forall_mem_cons.mp given
      exact ih others (keyed.putNew own head.1)

private theorem keyed_annotate {file : Option Path} {document fragment : Fields}
    (keyed : Keyed (.record document)) (ran : annotate file document = .ok fragment) :
    Keyed (.record fragment) := by
  have rest := keyed.erase "annotations"
  rcases annotate_ok ran with rfl | ⟨own, annotations, mark, attributes, given, held, rfl⟩
  · exact rest
  · have marked := (keyed_object.mp (keyed.of_get? given)).markFields (boundFields document)
    refine rest.put (keyed_object.mpr ((keyed_object.mp (rest.of_get? held)).mapValues
      fun value inside => ?_)) _
    cases value with
    | object mark fields =>
        exact keyed_object.mpr (keyed_fill (keyed_record.mp marked).2 (keyed_object.mp inside))
    | null | bool _ | int _ | float _ | text _ | array _ => exact keyed_of_not_object rfl

private theorem single_annotate {file : Option Path} {document fragment : Fields}
    (each : SingleEach (Entries.attributes document)) (ran : annotate file document = .ok fragment) :
    SingleEach (Entries.attributes fragment) := by
  have untouched : Entries.attributes (Entries.erase "annotations" document) =
      Entries.attributes document := by
    unfold Entries.attributes
    rw [Entries.get?_erase, if_neg (by decide)]
  rcases annotate_ok ran with rfl | ⟨own, annotations, mark, attributes, given, held, rfl⟩
  · rw [untouched]
    exact each
  · have inside : Entries.attributes document = attributes := by
      rw [← untouched, Entries.attributes, held]
    rw [Entries.attributes_put]
    refine (inside ▸ each : SingleEach attributes).mapValues fun value single => ?_
    rcases single.shape with apart | ⟨fields, rfl⟩
    · cases value with
      | object mark fields => cases apart
      | null | bool _ | int _ | float _ | text _ | array _ => exact single
    · exact single_record _

theorem document_ofFile {file : Path} {fragment : Fields} (ran : ofFile tree file = .ok fragment) :
    Document fragment := by
  obtain ⟨document, spelled, ran⟩ := bind_eq_ok.mp ran
  have written := written_readObject spelled
  refine ⟨keyed_annotate (Written.keyed _ written) ran, single_annotate (fun entry member => ?_) ran⟩
  unfold Entries.attributes at member
  split at member
  · rename_i mark attributes held
    exact ((written_object.mp (written.of_get? held)).2.of_mem member).single
  · cases member

theorem document_load {file : Path} {fragment : Fields}
    (ran : (load tree file).content = .ok fragment) : Document fragment := by
  rw [content_load] at ran
  obtain ⟨path, _, ran⟩ := bind_eq_ok.mp ran
  exact document_ofFile ran

end Fragment

/-! ### Directives -/

namespace Include

variable {reader : Reader}

def DocumentReader (reader : Reader) : Prop :=
  ∀ name context included, (reader name context).content = .ok (some included) → Document included

private theorem keyed_mergeOwn {included merged : Value} {own : Fields} (keyed : Keyed included)
    (given : Keyed (.record own)) (ran : mergeOwn included own = .ok merged) : Keyed merged := by
  unfold mergeOwn at ran
  split at ran
  · exact Except.ok.inj ran ▸ keyed
  · obtain ⟨fields, opened, ran⟩ := bind_eq_ok.mp ran
    rw [← pure_eq_ok.mp ran]
    exact (keyed.asFields opened).overlay given

private theorem keyed_tag {name : Value} {attributes : Fields} (naming : Keyed name)
    (keyed : Keyed (.record attributes)) : Keyed (.record (tag name attributes)) := by
  refine keyed.mapValues fun value inside => ?_
  cases value with
  | object mark fields => exact keyed_object.mpr ((keyed_object.mp inside).putNew naming _)
  | null | bool _ | int _ | float _ | text _ | array _ => exact keyed_of_not_object rfl

theorem single_tag {name : Value} {attributes : Fields} (each : SingleEach attributes) :
    SingleEach (tag name attributes) := by
  refine each.mapValues fun value single => ?_
  rcases single.shape with apart | ⟨fields, rfl⟩
  · cases value with
    | object mark fields => cases apart
    | null | bool _ | int _ | float _ | text _ | array _ => exact single
  · exact single_record _

private theorem single_mergeOwn {included merged : Value} {own : Fields} (each : SingleEach included.inner)
    (given : SingleEach own) (ran : mergeOwn included own = .ok merged) : SingleEach merged.inner := by
  unfold mergeOwn at ran
  split at ran
  · exact Except.ok.inj ran ▸ each
  · obtain ⟨fields, opened, ran⟩ := bind_eq_ok.mp ran
    obtain ⟨mark, rfl⟩ := inner_of_asFields opened
    rw [← pure_eq_ok.mp ran]
    exact each.overlay given

theorem offered_document {included : Fields} {before offered : Value} {amount : Nat} (inside : Document included)
    (known : Entries.get? "attributes" included = some before)
    (shape : offered = before.shift amount ∧ Entries.get? "meta" included ≠ some (.text "profile") ∨
      ∃ given next fields, Entries.get? "name" included = some given ∧
        (before.shift amount).asFields = .ok fields ∧
        offered = .record (tag ((given.shift amount).mark next).1 fields)) :
    Keyed offered ∧ SingleEach offered.inner := by
  have shifted := (inside.keyed.of_get? known).shift amount
  have each := (inside.of_get? known).shift amount
  rcases shape with ⟨rfl, _⟩ | ⟨given, next, fields, naming, opened, rfl⟩
  · exact ⟨shifted, each⟩
  · obtain ⟨mark, same⟩ := inner_of_asFields opened
    rw [same] at each
    exact ⟨keyed_tag (((inside.keyed.of_get? naming).shift amount).mark next)
      (shifted.asFields opened), single_tag each⟩

theorem document_mergeIncluded {context : Text} {item included merged : Fields}
    (own : Document item) (inside : Document included)
    (ran : (mergeIncluded context item included).Yields merged) : Document merged := by
  rcases mergeIncluded_ok ran with ⟨rfl, _⟩ | ⟨before, amount, offered, fields, joined, known, shape, opened,
    joins, rfl⟩
  · exact own
  · obtain ⟨keyed, each⟩ := offered_document inside known shape
    have single : SingleEach fields := Entries.attributes_of_orNull opened ▸ own.single
    exact own.putAttributes (keyed_mergeOwn keyed ((own.keyed.orNull _).asFields opened) joins)
      (single_mergeOwn each single joins)

private theorem document_mergeAll (fixed : ∀ name context, (reader name context).Fixed tree)
    (reads : DocumentReader reader) {context : Text} {names : List Text} {item merged : Fields}
    (own : Document item) (ran : (mergeAll reader context names item).content = .ok merged) :
    Document merged := by
  rw [content_mergeAll fixed] at ran
  refine foldlM_invariant (motive := Document) ran own ?_
  intro state name next _ before step
  obtain ⟨included, read, step⟩ := bind_eq_ok.mp step
  cases included with
  | none => exact pure_eq_ok.mp step ▸ before
  | some included =>
      exact document_mergeIncluded before (reads name context included read)
        (Act.settles_of_content tree step).yields

/-- An attribute stays in its place, whatever is merged into it. -/
theorem document_expandAttribute (fixed : ∀ name context, (reader name context).Fixed tree)
    (reads : DocumentReader reader) {context name : Text} {value result : Value}
    (before : Keyed value ∧ value.Single)
    (ran : (expandAttribute reader context name value).content = .ok result) :
    Keyed result ∧ result.Single := by
  obtain ⟨keyed, single⟩ := before
  cases value with
  | object mark fields =>
      cases single mark fields rfl
      rw [content_expandAttribute fixed] at ran
      split at ran
      · exact Except.ok.inj ran ▸ ⟨keyed, single⟩
      · obtain ⟨names, _, ran⟩ := bind_eq_ok.mp ran
        rw [content_mergeUnder fixed] at ran
        refine foldlM_invariant (motive := fun merged => Keyed merged ∧ merged.Single) ran
          ⟨(keyed_object.mp keyed).erase directive, single_record _⟩ ?_
        rintro merged name next _ ⟨keyed, single⟩ step
        obtain ⟨included, read, step⟩ := bind_eq_ok.mp step
        cases included with
        | none => exact pure_eq_ok.mp step ▸ ⟨keyed, single⟩
        | some included =>
            rw [← pure_eq_ok.mp step]
            exact ⟨((reads name _ included read).keyed.erase "attributes").merge _ _ keyed,
              (single_record _).merge single⟩
  | null | bool _ | int _ | float _ | text _ | array _ => exact Except.ok.inj ran ▸ ⟨keyed, single⟩

theorem document_expandWith (fixed : ∀ name context, (reader name context).Fixed tree)
    (reads : DocumentReader reader) {context : Text} {item expanded : Fields} (document : Document item)
    (ran : (expandWith reader context item).content = .ok expanded) : Document expanded := by
  rcases expandWith_ok fixed ran with ⟨rfl, _⟩ | ⟨mark, own, merged, found, joined, ran⟩
  · exact document
  · have before : Document merged := by
      rcases joined with ⟨rfl, _⟩ | ⟨context, names, joined⟩
      · exact document
      · have inside := (keyed_object.mp (document.keyed.of_get? found)).erase directive
        exact document_mergeAll fixed reads (document.putAttributes (keyed_object.mpr inside)
          ((document.of_get? found).filter _)) joined
    obtain ⟨attributes, results, opened, each, rfl⟩ := expandEach_ok ran
    have keyed := (before.keyed.orNull _).asFields opened
    have single : SingleEach attributes := Entries.attributes_of_orNull opened ▸ before.single
    have treated : ∀ entry ∈ results, Keyed entry.2 ∧ entry.2.Single := by
      intro entry member
      obtain ⟨origin, known, expands⟩ := each.mem_right member
      exact document_expandAttribute fixed reads ⟨keyed.of_mem known, single _ known⟩ expands
    exact before.putAttributes
      (keyed_record.mpr ⟨each.distinct keyed.distinct, fun entry member => (treated entry member).1⟩)
      fun entry member => (treated entry member).2

theorem document_find {places : Places} {name : Text} {file : Path × Fields}
    (ran : (find tree places name).content = .ok file) : Document file.2 := by
  rw [content_find] at ran
  obtain ⟨_, _, ran⟩ := bind_eq_ok.mp ran
  obtain ⟨_, _, ran⟩ := bind_eq_ok.mp ran
  obtain ⟨fragment, loads, ran⟩ := bind_eq_ok.mp ran
  exact pure_eq_ok.mp ran ▸ Fragment.document_load loads

/-- At any depth of files: each one entered leaves fewer to enter. -/
theorem document_read (places : Places) (stack : List Path) :
    DocumentReader (read tree places stack) := by
  intro name context included ran
  obtain ⟨path, fragment, fresh, present, found, inside⟩ := read_ok ran
  exact document_expandWith (fixed_read places _) (document_read places (stack ++ [path]))
    (document_find found) inside
termination_by ((candidates tree).filter (· ∉ stack)).length
decreasing_by exact remaining_lt present fresh

private theorem document_expand {places : Places} {context : Text} {origin : Option Path}
    {item expanded : Fields} (document : Document item)
    (ran : (expand tree places context origin item).content = .ok expanded) : Document expanded := by
  rw [content_expand] at ran
  obtain ⟨stack, _, ran⟩ := bind_eq_ok.mp ran
  exact document_expandWith (fixed_read places stack) (document_read places stack) document ran

end Include

/-! ### Folders -/

namespace Scan

variable {scan : Scan}

private theorem document_ok {kind : Text} {file : Path} {document : Fields}
    (ran : (scan.document kind file).content = .ok document) : Document document := by
  have settles := Act.settles_of_content scan.tree ran
  rw [document_eq_load] at settles
  obtain ⟨fragment, loads, settles⟩ := settles.bind (Fragment.fixed_load file)
  obtain ⟨expanded, expands, settles⟩ := settles.bind (Include.fixed_expand _ _ _ _)
  rw [← Act.yields_pure.mp settles.yields]
  exact (Include.document_expand (Fragment.document_load loads) expands).put (keyed_of_not_object rfl)
    (by decide)

/-- A document is put under its name, whatever is reported on the way. -/
theorem add_ok {context : Text} {file : Path} {items added : Entries Fields} {name : Text}
    {document : Fields} (ran : (scan.add context file items name document).Yields added) :
    added = Entries.put name document items := by
  unfold add at ran
  extract_lets rest at ran
  split at ran
  · exact (Act.yields_pure.mp ran).symm
  · extract_lets origin fault at ran
    split at ran
    · obtain ⟨_, impossible, _⟩ := Act.yields_bind ran
      exact absurd impossible Act.not_yields_throw
    · obtain ⟨_, _, ran⟩ := Act.yields_bind ran
      exact (Act.yields_pure.mp ran).symm

theorem truthy_of_itemName {kind : Text} {file : Path} {document : Fields} {name : Text}
    (ran : itemName kind file document = .ok name) : (Value.text name).truthy = true := by
  unfold itemName at ran
  split at ran
  · cases ran
  · split at ran
    · cases ran
    · rename_i given
      rw [Bool.not_eq_true', Bool.not_eq_false] at given
      split at ran
      · exact Except.ok.inj ran ▸ given
      · cases ran

def Role.name : Role → Text
  | .defines name | .patches name => name

/-- An item of an extension has a name, and a patch that of the item which it extends. -/
theorem truthy_of_role {kind : Text} {file : Path} {document : Fields} {own : Role}
    (ran : role kind file document = .ok own) : (Value.text own.name).truthy = true := by
  -- either text is read only if it is not empty
  have nonempty (text : Text) : ∀ given ∈ (if text.isEmpty then none else some text),
      (Value.text given).truthy = true := by
    intro given member
    split at member
    · cases member
    · rename_i content
      cases member
      simpa [Value.truthy] using content
  unfold role at ran
  extract_lets given parent read check at ran
  clear_value given parent
  have ended {named : Option Text} (proper : ∀ text ∈ named, (Value.text text).truthy = true)
      (ran : read named = .ok own) : (Value.text own.name).truthy = true := by
    unfold read at ran
    extract_lets choose at ran
    have chosen {extended : Option Text} (proper' : ∀ text ∈ extended, (Value.text text).truthy = true)
        (ran : choose extended = .ok own) : (Value.text own.name).truthy = true := by
      unfold choose at ran
      cases named with
      | none =>
          cases extended with
          | none => cases ran
          | some second => exact pure_eq_ok.mp ran ▸ proper' second rfl
      | some first =>
          cases extended with
          | none => exact pure_eq_ok.mp ran ▸ proper first rfl
          | some second =>
              rw [← pure_eq_ok.mp ran]
              split
              · exact proper' second rfl
              · exact proper first rfl
    split at ran
    · exact chosen (nonempty _) ran
    · split at ran
      · cases ran
      · exact chosen (fun _ impossible => by cases impossible) ran
    · exact chosen (fun _ impossible => by cases impossible) ran
  have started (ran : check () = .ok own) : (Value.text own.name).truthy = true := by
    unfold check at ran
    split at ran
    · exact ended (nonempty _) ran
    · split at ran
      · cases ran
      · exact ended (fun _ impossible => by cases impossible) ran
    · exact ended (fun _ impossible => by cases impossible) ran
  split at ran
  · cases ran
  · exact started ran
private theorem documents_items {base : Path} {kind : Text} {items : Entries Fields}
    (ran : (scan.items base kind).content = .ok items) : DocumentEach items := by
  have settles := Act.settles_of_content scan.tree ran
  rw [items_eq] at settles
  obtain ⟨files, _, settles⟩ := settles.bind (Act.fixed_lift _)
  refine settles.foldlM_invariant (fun state file _ => fixed_addItem scan kind state file) .nil ?_
  intro state file next _ documents step
  obtain ⟨document, read, step⟩ :=
    (Act.settles_of_content scan.tree step).bind (fixed_document scan kind file)
  obtain ⟨name, naming, step⟩ := step.bind (Act.fixed_lift _)
  rw [Act.content_lift] at naming
  exact add_ok step.yields ▸ documents.put (truthy_of_itemName naming) (document_ok read)

private theorem documents_patchable {base : Path} {kind : Text} {found : Patchable}
    (ran : (scan.patchable base kind).content = .ok found) :
    DocumentEach found.items ∧ DocumentEach found.patches := by
  have settles := Act.settles_of_content scan.tree ran
  rw [patchable_eq] at settles
  obtain ⟨files, _, settles⟩ := settles.bind (Act.fixed_lift _)
  refine settles.foldlM_invariant
    (motive := fun found : Patchable => DocumentEach found.items ∧ DocumentEach found.patches)
    (fun state file _ => fixed_addPatchable scan kind state file) ⟨.nil, .nil⟩ ?_
  rintro state file next _ ⟨items, patches⟩ step
  obtain ⟨document, read, step⟩ :=
    (Act.settles_of_content scan.tree step).bind (fixed_document scan kind file)
  obtain ⟨role, named, step⟩ := step.bind (Act.fixed_lift _)
  rw [Act.content_lift] at named
  cases role with
  | patches name =>
      obtain ⟨added, adds, step⟩ := Act.yields_bind step.yields
      rw [← Act.yields_pure.mp step, add_ok adds]
      exact ⟨items, patches.put (truthy_of_role named) (document_ok read)⟩
  | defines name =>
      obtain ⟨added, adds, step⟩ := Act.yields_bind step.yields
      rw [← Act.yields_pure.mp step, add_ok adds]
      exact ⟨items.put (truthy_of_role named) (document_ok read), patches⟩

end Scan

/-! ### Contributions -/

namespace Contribution

variable {c : Contribution} {e : Extension}

structure Keyed (c : Contribution) : Prop where
  categories : Value.Keyed (.record c.categories)
  dictionary : Value.Keyed (.record c.dictionary)
  classes : DocumentEach c.classes
  classPatches : DocumentEach c.classPatches
  objects : DocumentEach c.objects
  objectPatches : DocumentEach c.objectPatches
  profiles : DocumentEach c.profiles

private theorem keyed_optionalDocument {file : Path} {document : Fields}
    (ran : (optionalDocument tree file).content = .ok document) : Value.Keyed (.record document) := by
  unfold optionalDocument at ran
  split at ran
  · exact (Fragment.document_load ran).keyed
  · cases ran
    exact keyed_nil

theorem keyed_read {schema : Path} {policy : DuplicatePolicy}
    (ran : (read tree schema policy e).content = .ok c) : c.Keyed := by
  obtain ⟨classes, objects, categories, dictionary, profiles, inClasses, inObjects, inCategories,
    inDictionary, inProfiles, rfl⟩ := read_ok ran
  exact {
    categories := keyed_optionalDocument inCategories
    dictionary := keyed_optionalDocument inDictionary
    classes := (Scan.documents_patchable inClasses).1
    classPatches := (Scan.documents_patchable inClasses).2
    objects := (Scan.documents_patchable inObjects).1
    objectPatches := (Scan.documents_patchable inObjects).2
    profiles := Scan.documents_items inProfiles }

private theorem keyed_stampFields {fields : Fields} (keyed : Value.Keyed (.record fields)) :
    Value.Keyed (.record (stampFields e fields)) :=
  (keyed.put (keyed_of_not_object rfl) _).put (keyed_of_not_object rfl) _

private theorem document_stampFields {fields : Fields} (document : Document fields) :
    Document (stampFields e fields) :=
  (document.put (keyed_of_not_object rfl) (by decide)).put (keyed_of_not_object rfl) (by decide)

private theorem keyed_stamp {value result : Value} (keyed : Value.Keyed value)
    (ran : stamp e value = .ok result) : Value.Keyed result := by
  obtain ⟨mark, fields, rfl, rfl⟩ := stamp_ok ran
  exact keyed_object.mpr (keyed_stampFields (keyed_object.mp keyed))

private theorem keyed_stampSection {value result : Value} (keyed : Value.Keyed value)
    (ran : stampSection e value = .ok result) : Value.Keyed result := by
  obtain ⟨fields, opened, ran⟩ := bind_eq_ok.mp ran
  obtain ⟨results, each, ran⟩ := bind_eq_ok.mp ran
  rw [← pure_eq_ok.mp ran]
  exact (keyed.asFields opened).related (Entries.mapM_eq_ok.mp each)
    fun _ _ _ treated inside => keyed_stamp inside treated

private theorem keyed_uid {factor : Int} {outer uid : Value} {inner : Number}
    (ran : Uid.scope factor outer inner = .ok uid) : Value.Keyed uid := by
  obtain ⟨_, _, ran⟩ := bind_eq_ok.mp ran
  obtain ⟨_, _, ran⟩ := bind_eq_ok.mp ran
  obtain ⟨number, _, ran⟩ := bind_eq_ok.mp ran
  rw [← pure_eq_ok.mp ran]
  cases number <;> exact keyed_of_not_object rfl

private theorem keyed_stampCategory {value result : Value} (keyed : Value.Keyed value)
    (ran : stampCategory e value = .ok result) : Value.Keyed result := by
  obtain ⟨mark, fields, uid, full, rfl, _, within, rfl⟩ := stampCategory_ok ran
  obtain ⟨inner, _, within⟩ := bind_eq_ok.mp within
  split at within
  · exact keyed_object.mpr (keyed_stampFields ((keyed_object.mp keyed).put (keyed_uid within) _))
  · cases within

private theorem keyed_stamped {stamped : Contribution} (keyed : c.Keyed) (ran : c.stamped = .ok stamped) :
    stamped.Keyed := by
  obtain ⟨types, attributes, typeAttributes, entries, categories, opened, inAttributes, inTypes,
    openedCategories, inCategories, rfl⟩ := stamped_ok ran
  have keyedTypes := (keyed.dictionary.orEmpty "types").asFields opened
  have keyedAttributes := keyed_stampSection (keyed.dictionary.orEmpty _) inAttributes
  have keyedTypeAttributes := keyed_stampSection (keyedTypes.orEmpty _) inTypes
  have keyedCategories := ((keyed.categories.orEmpty _).asFields openedCategories).related inCategories
    fun _ _ _ treated inside => keyed_stampCategory inside treated
  exact {
    categories := keyed.categories.put keyedCategories _
    dictionary := (keyed.dictionary.put keyedAttributes _).put (keyedTypes.put keyedTypeAttributes _) _
    classes := keyed.classes.mapValues fun _ => document_stampFields
    classPatches := keyed.classPatches.mapValues fun _ => document_stampFields
    objects := keyed.objects.mapValues fun _ => document_stampFields
    objectPatches := keyed.objectPatches.mapValues fun _ => document_stampFields
    profiles := keyed.profiles.mapValues fun _ => document_stampFields }

private theorem keyed_profileReference {profile result : Value} (keyed : Value.Keyed profile)
    (ran : profileReference c profile = .ok result) : Value.Keyed result := by
  unfold profileReference at ran
  obtain ⟨_, _, ran⟩ := bind_eq_ok.mp ran
  split at ran
  · exact pure_eq_ok.mp ran ▸ keyed
  · obtain ⟨_, _, ran⟩ := bind_eq_ok.mp ran
    split at ran
    · exact pure_eq_ok.mp ran ▸ keyed_of_not_object rfl
    · exact pure_eq_ok.mp ran ▸ keyed

private theorem document_writeOutItem {item result : Fields} (document : Document item)
    (ran : writeOutItem c item = .ok result) : Document result := by
  obtain ⟨listed, shape, ended⟩ := writeOutItem_ok ran
  have listed : Document listed := by
    rcases shape with rfl | ⟨written, rfl⟩
    · exact document
    · exact document.put (keyed_of_not_object rfl) (by decide)
  rcases ended with ⟨rfl, _⟩ | ⟨attributes, fields, written, found, opened, each, rfl⟩
  · exact listed
  · have inside := (listed.keyed.of_get? found).asFields opened
    have single : SingleEach fields := by
      obtain ⟨mark, rfl⟩ := inner_of_asFields opened
      exact listed.of_get? found
    have each := Entries.mapM_eq_ok.mp each
    refine listed.putAttributes (inside.related each ?_) (single.related each ?_)
    · intro _ value result treated keyed
      rcases writeOutAttribute_ok treated with rfl | ⟨mark, own, profile, reference, rfl, given, refers, rfl⟩
      · exact keyed
      · have own := keyed_object.mp keyed
        exact keyed_object.mpr (own.put (keyed_profileReference (own.of_get? given) refers) _)
    · intro _ value result treated single
      rcases writeOutAttribute_ok treated with rfl | ⟨mark, own, _, _, rfl, _, _, rfl⟩
      · exact single
      · cases single mark own rfl
        exact single_record _

private theorem documents_writeOut {items results : Entries Fields} (documents : DocumentEach items)
    (ran : writeOut c items = .ok results) : DocumentEach results :=
  documents.related (Entries.mapM_eq_ok.mp ran)
    fun _ _ _ treated inside => document_writeOutItem inside treated

private theorem keyed_prepare {prepared : Contribution} (keyed : c.Keyed)
    (ran : (Compilation.prepare c).Yields prepared) : prepared.Keyed := by
  obtain ⟨stamped, _, _, _, _, stamps, classes, classPatches, objects, objectPatches, rfl⟩ :=
    prepare_ok ran
  have keyedStamped := keyed_stamped keyed stamps
  exact {
    keyedStamped with
    classes := documents_writeOut keyedStamped.classes classes
    classPatches := documents_writeOut keyedStamped.classPatches classPatches
    objects := documents_writeOut keyedStamped.objects objects
    objectPatches := documents_writeOut keyedStamped.objectPatches objectPatches }

/-! ### The dictionary -/

private theorem keyed_contributed {name : Text} {new existing given : Value} (keyed : Value.Keyed new)
    (ran : (contributed e name new existing).Yields given) : Value.Keyed given := by
  rcases contributed_ok ran with ⟨_, rfl⟩ | ⟨_, _, mark, fields, rfl, _, rfl⟩
  · exact keyed
  · exact ((keyed_object.mp keyed).erase _).erase _

private theorem keyed_mergeAttributes {base merged : Value} {new : Fields} (keyed : Value.Keyed base)
    (given : Value.Keyed (.record new)) (ran : (mergeAttributes e base new).Yields merged) :
    Value.Keyed merged := by
  induction base, new using mergeAttributes.induct with
  | case1 base =>
      rw [mergeAttributes] at ran
      exact Act.yields_pure.mp ran ▸ keyed
  | case2 base name value later ih =>
      obtain ⟨own, others⟩ := keyed_cons given
      rw [mergeAttributes] at ran
      obtain ⟨attributes, opened, ran⟩ := Act.yields_bind ran
      obtain ⟨given, contributes, ran⟩ := Act.yields_bind ran
      obtain ⟨whole, rest⟩ := (keyed.asFields (Act.yields_lift.mp opened)).overlayOne name others
        (keyed_contributed own contributes)
      exact ih attributes given whole rest ran

private theorem keyed_extendDictionary {dictionary extended : Fields} (keyed : Value.Keyed (.record dictionary))
    (given : Value.Keyed (.record c.dictionary)) (ran : (c.extendDictionary dictionary).Yields extended) :
    Value.Keyed (.record extended) := by
  obtain ⟨new, attributes, types, newTypes, newTypeAttributes, typeAttributes, openedNew, merged,
    opened, openedTypes, openedInner, folded, rfl⟩ := extendDictionary_ok ran
  have keyedNew := ((given.orEmpty _).asFields openedNew).shiftFields (boundFields dictionary)
  have keyedNewTypes := (((given.orEmpty _).asFields openedTypes).orEmpty _).asFields openedInner
  have keyedTypes := (keyed.orEmpty _).asFields opened
  have attributesKeyed := keyed_mergeAttributes (keyed.orEmpty _) keyedNew merged
  have typesKeyed : Value.Keyed typeAttributes := by
    refine foldlM_invariant (motive := Value.Keyed) folded (keyedTypes.orEmpty _) ?_
    intro state entry next member held step
    obtain ⟨mark, known, rfl, _, rfl⟩ := addType_ok step
    exact keyed_object.mpr ((keyed_object.mp held).put (keyedNewTypes.of_mem member) _)
  exact (keyed.put attributesKeyed _).put (keyedTypes.put typesKeyed _) _

end Contribution

/-! ### Patches -/

namespace Patch

private theorem keyed_replace {patch item : Fields} (given : Keyed (.record patch)) (keyed : Keyed (.record item))
    (key : Text) : Keyed (.record (replace patch item key)) := by
  unfold replace
  split
  · rename_i value found
    split
    · exact keyed
    · exact keyed.put (given.of_get? found) _
  · exact keyed

private theorem keyed_replaceEach {patch item : Fields} (given : Keyed (.record patch))
    (keyed : Keyed (.record item)) (keys : List Text) :
    Keyed (.record (keys.foldl (replace patch) item)) := by
  induction keys generalizing item with
  | nil => exact keyed
  | cons head rest ih => exact ih (keyed_replace given keyed head)

private theorem keyed_replaceConstraints {patch item : Fields} (given : Keyed (.record patch))
    (keyed : Keyed (.record item)) : Keyed (.record (replaceConstraints patch item)) := by
  unfold replaceConstraints
  split
  · rename_i constraints found
    split
    · exact keyed.put (given.of_get? found) _
    · exact keyed.erase _
  · exact keyed

private theorem document_applyTo {name : Text} {patch item result : Fields} (given : Document patch)
    (document : Document item) (ran : applyTo name patch item = .ok result) : Document result := by
  obtain ⟨patcher, listed, changes, attributes, patchers, _, shape, opened, written, rfl⟩ := applyTo_ok ran
  have before : Document listed := by
    rcases shape with rfl | ⟨joined, rfl⟩
    · exact document
    · exact document.put (keyed_of_not_object rfl) (by decide)
  have kept : ∀ value, value.Single → (sourced (Scope.within patcher.shown name) value).Single := by
    intro value single
    rcases single.shape with apart | ⟨fields, rfl⟩
    · cases value with
      | object mark fields => cases apart
      | null | bool _ | int _ | float _ | text _ | array _ => exact single
    · exact single_record _
  have given' : Keyed (.record (changed patcher.shown name listed changes)) ∧
      SingleEach (changed patcher.shown name listed changes) := by
    constructor
    · refine ((given.keyed.fieldsOrNone opened).shiftFields _).mapValues fun value inside => ?_
      cases value with
      | object mark fields =>
          exact keyed_object.mpr ((keyed_object.mp inside).put (keyed_of_not_object rfl) _)
      | null | bool _ | int _ | float _ | text _ | array _ => exact keyed_of_not_object rfl
    · have own : SingleEach changes := Lineage.attributes_of_fieldsOrNone opened ▸ given.single
      exact (own.shiftFields _).mapValues kept
  have merged : Keyed attributes ∧ SingleEach attributes.inner := by
    rcases written with ⟨_, rfl⟩ | ⟨fields, known, rfl⟩
    · exact ⟨before.keyed.orEmpty _, before.orEmpty_inner⟩
    · have own := before.orEmpty_inner
      obtain ⟨mark, same⟩ := inner_of_asFields known
      rw [same] at own
      exact ⟨((before.keyed.orEmpty _).asFields known).overlay given'.1, own.overlay given'.2⟩
  constructor
  · exact (keyed_replaceConstraints given.keyed (keyed_replaceEach given.keyed
      (before.keyed.put merged.1 _) _)).put (keyed_of_not_object rfl) _
  · rw [Entries.attributes_eq_inner, Entries.orEmpty, Entries.getOr, get?_attributes_patched,
      Option.getD_some]
    exact merged.2

def DocumentPatches (patches : Patches) : Prop :=
  ∀ entry ∈ patches, ∀ patch ∈ entry.2, Document patch

theorem documents_applyAll {kind : ItemKind} {patches : Patches} {items patched : Entries Fields}
    (given : DocumentPatches patches) (documents : DocumentEach items)
    (ran : (applyAll kind items patches).Yields patched) : DocumentEach patched := by
  refine Act.foldlM_keeps ran documents fun items entry next member documents step => ?_
  refine Act.foldlM_keeps step documents fun items patch next known documents step => ?_
  rcases apply_ok step with ⟨_, rfl⟩ | ⟨item, result, found, _, one, rfl⟩
  · exact documents
  · exact documents.put (documents.named _ (Entries.mem_of_get? found))
      (document_applyTo (given entry member patch known) (documents.of_get? found) one)

theorem each_addPatches (holds : Text → Fields → Prop) {patches : Patches} {new : Entries Fields}
    (each : ∀ entry ∈ patches, ∀ patch ∈ entry.2, holds entry.1 patch)
    (given : ∀ entry ∈ new, holds entry.1 entry.2) :
    ∀ entry ∈ Compilation.addPatches patches new, ∀ patch ∈ entry.2, holds entry.1 patch := by
  unfold Compilation.addPatches
  induction new generalizing patches with
  | nil => exact each
  | cons head rest ih =>
      obtain ⟨own, others⟩ := List.forall_mem_cons.mp given
      refine ih (fun entry member patch known => ?_) others
      rcases Entries.mem_of_mem_put member with written | before
      · rw [written] at known ⊢
        rcases List.mem_append.mp known with earlier | last
        · cases found : Entries.get? head.1 patches with
          | none =>
              rw [found] at earlier
              cases earlier
          | some others =>
              rw [found] at earlier
              exact each _ (Entries.mem_of_get? found) patch earlier
        · exact List.mem_singleton.mp last ▸ own
      · exact each entry before patch known

private theorem documentPatches_addPatches {patches : Patches} {new : Entries Fields}
    (documents : DocumentPatches patches) (given : DocumentEach new) :
    DocumentPatches (Compilation.addPatches patches new) :=
  each_addPatches (fun _ => Document) documents given.each

end Patch

/-! ### The definitions of a compilation -/

namespace Compilation

structure Sources.Keyed (s : Sources) : Prop where
  categories : Value.Keyed (.record s.categories)
  dictionary : Value.Keyed (.record s.dictionary)
  classes : DocumentEach s.classes
  objects : DocumentEach s.objects
  profiles : DocumentEach s.profiles
  classPatches : Patch.DocumentPatches s.classPatches
  objectPatches : Patch.DocumentPatches s.objectPatches

private theorem keyed_requiredDocument {c : Compilation} {name : Text} {document : Fields}
    (ran : (c.requiredDocument name).content = .ok document) : Value.Keyed (.record document) := by
  obtain ⟨outcome, loads, ran⟩ :=
    (Act.settles_of_content c.tree ran).bind (Fragment.fixed_load _).attempt
  rw [Act.content_attempt, Except.ok.injEq] at loads
  have ended := ran.yields
  split at ended
  · rw [Act.yields_pure.mp ended] at loads
    exact (Fragment.document_load loads).keyed
  · exact absurd ended Act.not_yields_throw
  · exact absurd ended Act.not_yields_throw

private theorem keyed_baseSchema {c : Compilation} {base : Sources} (ran : c.baseSchema = .ok base) :
    base.Keyed := by
  obtain ⟨categories, readCategories, ran⟩ := bind_eq_ok.mp ran
  obtain ⟨dictionary, readDictionary, ran⟩ := bind_eq_ok.mp ran
  obtain ⟨classes, readClasses, ran⟩ := bind_eq_ok.mp ran
  obtain ⟨objects, readObjects, ran⟩ := bind_eq_ok.mp ran
  obtain ⟨profiles, readProfiles, ran⟩ := bind_eq_ok.mp ran
  rw [← pure_eq_ok.mp ran]
  exact {
    categories := keyed_requiredDocument readCategories
    dictionary := keyed_requiredDocument readDictionary
    classes := Scan.documents_items readClasses
    objects := Scan.documents_items readObjects
    profiles := Scan.documents_items readProfiles
    classPatches := List.forall_mem_nil _
    objectPatches := List.forall_mem_nil _ }

private theorem documents_addScoped {e : Extension} {base new : Entries Fields} (documents : DocumentEach base)
    (given : DocumentEach new) : DocumentEach (addScoped e base new) := by
  have each := given.each
  clear given
  unfold addScoped
  induction new generalizing base with
  | nil => exact documents
  | cons head rest ih =>
      obtain ⟨own, others⟩ := List.forall_mem_cons.mp each
      exact ih (documents.put (Scope.truthy_within ..) own) others

private theorem keyed_addCategories {e : Extension} {base new result : Fields} (keyed : Value.Keyed (.record base))
    (given : Value.Keyed (.record new)) (ran : addCategories e base new = .ok result) :
    Value.Keyed (.record result) := by
  obtain ⟨entries, added, opened, written, rfl⟩ := addCategories_ok ran
  have each := (given.orEmpty _).asFields opened
  refine keyed.put (foldlM_invariant (motive := Value.Keyed) written (keyed.orEmpty _) ?_) _
  intro state entry next member held step
  cases state with
  | object mark fields =>
      rw [← Except.ok.inj step]
      exact keyed_object.mpr ((keyed_object.mp held).put (each.of_mem member) _)
  | null | bool _ | int _ | float _ | text _ | array _ => cases step

theorem Sources.Keyed.add {s added : Sources} {c : Contribution} (keyed : s.Keyed) (given : c.Keyed)
    (ran : (s.add c).Yields added) : added.Keyed := by
  obtain ⟨categories, dictionary, listed, extended, rfl⟩ := add_ok ran
  exact {
    categories := keyed_addCategories keyed.categories given.categories listed
    dictionary := Contribution.keyed_extendDictionary keyed.dictionary given.dictionary extended
    classes := documents_addScoped keyed.classes given.classes
    objects := documents_addScoped keyed.objects given.objects
    profiles := documents_addScoped keyed.profiles given.profiles
    classPatches := Patch.documentPatches_addPatches keyed.classPatches given.classPatches
    objectPatches := Patch.documentPatches_addPatches keyed.objectPatches given.objectPatches }

end Compilation

structure Definitions.Keyed (d : Definitions) : Prop where
  categories : Value.Keyed d.categories
  dictionary : Value.Keyed d.dictionary
  classes : Value.Keyed d.classes
  objects : Value.Keyed d.objects
  profiles : Value.Keyed d.profiles

namespace Compilation

theorem keyed_prepares {c : Compilation} {e : Extension} {prepared : Contribution}
    (prepares : c.Prepares e prepared) : prepared.Keyed := by
  obtain ⟨contribution, read, ran⟩ := prepares
  exact Contribution.keyed_prepare (Contribution.keyed_read read) ran

theorem Steps.keyed_sources {c : Compilation} {graph : Graph} (steps : Steps c graph) :
    steps.sources.Keyed := by
  refine Act.foldlM_keeps steps.merging (keyed_baseSchema steps.reading) ?_
  intro s contribution next member keyed step
  obtain ⟨e, _, prepares⟩ := exists_left_of_mem steps.prepares member
  exact keyed.add (keyed_prepares prepares) step

theorem Steps.documents {c : Compilation} {graph : Graph} (steps : Steps c graph) :
    ∃ classes objects, DocumentEach classes ∧ DocumentEach objects ∧
      steps.definitions.classes = .record (Entries.mapValues Value.record classes) ∧
      steps.definitions.objects = .record (Entries.mapValues Value.record objects) := by
  have keyed := steps.keyed_sources
  obtain ⟨classes, objects, patchedClasses, patchedObjects, same⟩ := Sources.definitions_ok steps.defining
  rw [same]
  exact ⟨classes, objects, Patch.documents_applyAll keyed.classPatches keyed.classes patchedClasses,
    Patch.documents_applyAll keyed.objectPatches keyed.objects patchedObjects, rfl, rfl⟩

theorem Steps.keyed {c : Compilation} {graph : Graph} (steps : Steps c graph) :
    steps.definitions.Keyed := by
  have keyed := steps.keyed_sources
  obtain ⟨classes, objects, inClasses, inObjects, shape, shape'⟩ := steps.documents
  obtain ⟨_, _, _, _, same⟩ := Sources.definitions_ok steps.defining
  constructor
  · rw [same]
    exact keyed.categories
  · rw [same]
    exact keyed.dictionary
  · rw [shape]
    exact inClasses.record
  · rw [shape']
    exact inObjects.record
  · rw [same]
    exact keyed.profiles.record

end Compilation

end EventSchema
