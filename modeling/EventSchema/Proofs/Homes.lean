import EventSchema.Proofs.Conservative
import EventSchema.Proofs.Graph.Owners

/-!
What becomes of every definition that is scanned.

The base schema and each extension is a home of definitions, and all of them end up under one key each: a
definition of the base schema under its name, one of an extension under its scoped name. A scan that does
not tolerate duplicates keeps every definition that it finds. So as long as no two homes have a definition
with the same key, the compiled schema has all of them, each with the file and the extension that it comes
from.
-/

set_option autoImplicit false

namespace EventSchema

/-! ### Items under their keys -/

namespace Entries

variable {α : Type}

theorem ofList_append (first later : List (Text × α)) :
    ofList (first ++ later) = later.foldl (fun entries pair => put pair.1 pair.2 entries) (ofList first) :=
  List.foldl_append

theorem foldl_put_of_nodup (start : Entries α) {pairs : List (Text × α)}
    (distinct : (keys (start ++ pairs)).Nodup) :
    pairs.foldl (fun entries pair => put pair.1 pair.2 entries) start = start ++ pairs := by
  induction pairs generalizing start with
  | nil => exact (List.append_nil start).symm
  | cons pair rest ih =>
      have absent : pair.1 ∉ keys start := by
        rw [keys, List.map_append, List.map_cons] at distinct
        intro present
        exact (List.nodup_append.mp distinct).2.2 _ present _ (List.mem_cons_self ..) rfl
      have step : put pair.1 pair.2 start = start ++ [pair] := by
        have written := put_append_of_absent absent pair.2 []
        rwa [List.append_nil] at written
      rw [List.foldl_cons, step, ih _ (by rwa [List.append_assoc]), List.append_assoc]
      rfl

private theorem mem_of_mem_foldl_put {start pairs : List (Text × α)} {entry : Text × α}
    (member : entry ∈ pairs.foldl (fun entries pair => put pair.1 pair.2 entries) start) :
    entry ∈ start ∨ entry ∈ pairs := by
  induction pairs generalizing start with
  | nil => exact .inl member
  | cons pair rest ih =>
      rcases ih member with before | later
      · rcases mem_of_mem_put before with written | old
        · exact .inr (written ▸ List.mem_cons_self ..)
        · exact .inl old
      · exact .inr (List.mem_cons_of_mem _ later)

theorem mem_of_mem_ofList {pairs : List (Text × α)} {entry : Text × α} (member : entry ∈ ofList pairs) :
    entry ∈ pairs :=
  (mem_of_mem_foldl_put member).resolve_left List.not_mem_nil

variable {β : Type} {rename : Text → Text} {change : α → β}

def putAll (rename : Text → Text) (change : α → β) (base : Entries β) (entries : List (Text × α)) : Entries β :=
  entries.foldl (fun base entry => put (rename entry.1) (change entry.2) base) base

private theorem put_putAll {key : Text} {base : Entries β} (present : has key base = true) (value : β)
    {entries : List (Text × α)} (apart : ∀ entry ∈ entries, rename entry.1 ≠ key) :
    put key value (putAll rename change base entries) = putAll rename change (put key value base) entries := by
  unfold putAll
  induction entries generalizing base with
  | nil => rfl
  | cons head rest ih =>
      obtain ⟨different, others⟩ := List.forall_mem_cons.mp apart
      have still : has key (put (rename head.1) (change head.2) base) = true := by
        rw [has, get?_put, if_neg (Ne.symm different)]
        exact present
      rw [List.foldl_cons, List.foldl_cons, ih still others,
        put_put_of_has (Ne.symm different) present]

private theorem putAll_put (inj : Function.Injective rename) {entries : Entries α} (distinct : Distinct entries)
    (base : Entries β) (key : Text) (value : α) :
    putAll rename change base (put key value entries) =
      put (rename key) (change value) (putAll rename change base entries) := by
  induction entries generalizing base with
  | nil => rfl
  | cons head rest ih =>
      obtain ⟨known, old⟩ := head
      obtain ⟨fresh, others⟩ := List.nodup_cons.mp distinct
      rw [put]
      by_cases same : known = key
      · subst same
        have apart : ∀ entry ∈ rest, rename entry.1 ≠ rename known := fun entry member equal =>
          fresh (List.mem_map.mpr ⟨entry, member, inj equal⟩)
        have present : has (rename known) (put (rename known) (change old) base) = true := by
          rw [has, get?_put_self]
          rfl
        rw [if_pos rfl, putAll, putAll, List.foldl_cons, List.foldl_cons]
        exact ((put_putAll present (change value) apart).trans (by rw [put_put]; rfl)).symm
      · rw [if_neg same]
        exact ih others _

/-- Of pairs that are written under other keys it makes no difference if those that are replaced are dropped
before. -/
theorem putAll_ofList (inj : Function.Injective rename) (base : Entries β) (pairs : List (Text × α)) :
    putAll rename change base (ofList pairs) = putAll rename change base pairs := by
  have written {entries : Entries α} (distinct : Distinct entries) (pairs : List (Text × α)) :
      putAll rename change base (pairs.foldl (fun entries pair => put pair.1 pair.2 entries) entries) =
        putAll rename change (putAll rename change base entries) pairs := by
    induction pairs generalizing entries with
    | nil => rfl
    | cons pair rest ih =>
        rw [List.foldl_cons, ih (distinct.put pair.1 pair.2), putAll_put inj distinct]
        rfl
  exact written .nil pairs

end Entries

/-! ### What a scan finds -/

def ItemKind.folder : ItemKind → Text
  | .eventClass => "events"
  | .object => "objects"
  | .profile => "profiles"

/-- A definition: where it belongs, the file it is in, its name there, and what the file says with all
directives expanded. -/
structure ScannedItem where
  home : Option Extension
  file : Path
  name : Text
  document : Fields

namespace ScannedItem

/-- The key of a definition among those of all homes. -/
def key (item : ScannedItem) : Text :=
  match item.home with
  | none => item.name
  | some e => Scope.within e.name item.name

/-- The extension that a definition says it is of: its home, and what its file says in the base schema. -/
def owner (item : ScannedItem) : Value :=
  match item.home with
  | none => Entries.orNull "extension" item.document
  | some e => .text e.name

/-- The fields of a definition, stamped with its home. -/
def fields (item : ScannedItem) : Fields :=
  match item.home with
  | none => item.document
  | some e => Contribution.stampFields e item.document

def named (item : ScannedItem) : Text × Fields := (item.name, item.document)

def placed (item : ScannedItem) : Text × Fields := (item.key, item.fields)

private theorem orNull_extension (item : ScannedItem) :
    Entries.orNull "extension" item.fields = item.owner := by
  obtain ⟨home, file, name, document⟩ := item
  cases home with
  | none => rfl
  | some e =>
      unfold fields Contribution.stampFields
      rw [Entries.orNull_put_of_ne (by decide)]
      exact Entries.orNull_put_self ..

private theorem get?_fields (item : ScannedItem) {field : Text}
    (unstamped : field ∉ (["extension", "extension_id"] : List Text)) :
    Entries.get? field item.fields = Entries.get? field item.document := by
  simp only [List.mem_cons, List.not_mem_nil, or_false, not_or] at unstamped
  obtain ⟨home, file, name, document⟩ := item
  cases home with
  | none => rfl
  | some e =>
      unfold fields Contribution.stampFields
      rw [Entries.get?_put_of_ne (Ne.symm unstamped.2)]
      exact Entries.get?_put_of_ne (Ne.symm unstamped.1) ..

end ScannedItem

namespace Scan

variable {scan : Scan}

/-- The name that a file defines, if it defines one: a class or an object of an extension may be a patch
instead. -/
def definedName (kind : ItemKind) (home : Option Extension) (file : Path) (document : Fields) :
    Except Fault (Option Text) :=
  if home.isSome ∧ kind ≠ .profile then do
    match ← role kind.folder file document with
    | .defines name => return some name
    | .patches _ => return none
  else do return some (← itemName kind.folder file document)

def itemOf (scan : Scan) (kind : ItemKind) (home : Option Extension) (file : Path) :
    Except Fault (Option ScannedItem) := do
  let document ← (scan.document kind.folder file).content
  return (← definedName kind home file document).map fun name => { home, file, name, document }

/-- The definitions of a kind below a folder, in walking order. -/
def scanned (scan : Scan) (base : Path) (kind : ItemKind) (home : Option Extension) :
    Except Fault (List ScannedItem) := do
  (← scan.files base kind.folder).filterMapM (scan.itemOf kind home)

private theorem origin_of_document {kind : Text} {file : Path} {document : Fields}
    (ran : (scan.document kind file).content = .ok document) :
    Entries.get? "_origin" document = some (.text file.text) := by
  have settles := Act.settles_of_content scan.tree ran
  rw [document_eq_load] at settles
  obtain ⟨fragment, _, settles⟩ := settles.bind (Fragment.fixed_load file)
  obtain ⟨expanded, _, settles⟩ := settles.bind (Include.fixed_expand _ _ _ _)
  rw [← Act.yields_pure.mp settles.yields]
  exact Entries.get?_put_self ..

theorem home_of_scanned {base : Path} {kind : ItemKind} {home : Option Extension}
    {items : List ScannedItem} (ran : scan.scanned base kind home = .ok items) {item : ScannedItem}
    (member : item ∈ items) :
    item.home = home ∧ Entries.get? "_origin" item.document = some (.text item.file.text) := by
  obtain ⟨files, _, ran⟩ := bind_eq_ok.mp ran
  obtain ⟨file, _, defines⟩ := exists_of_filterMapM ran member
  obtain ⟨document, read, defines⟩ := bind_eq_ok.mp defines
  obtain ⟨named, _, defines⟩ := bind_eq_ok.mp defines
  obtain ⟨name, _, rfl⟩ := Option.map_eq_some_iff.mp (pure_eq_ok.mp defines)
  exact ⟨rfl, origin_of_document read⟩

/-- Where duplicates are faults, an item that is added is a new one. -/
theorem add_strict (strict : scan.policy = .error) {context : Text} {file : Path}
    {items added : Entries Fields} {name : Text} {document : Fields}
    (ran : (scan.add context file items name document).Yields added) : name ∉ Entries.keys items := by
  intro present
  obtain ⟨existing, held⟩ := Option.ne_none_iff_exists'.mp (Entries.get?_eq_none_iff.not_left.mpr present)
  unfold add at ran
  rw [held, strict] at ran
  obtain ⟨_, impossible, _⟩ := Act.yields_bind ran
  exact absurd impossible Act.not_yields_throw

/-- What a file adds to the items found before: what it defines, which is new where duplicates are faults. -/
def Adds (strict : Prop) (before : Entries Fields) (found : Option ScannedItem) (after : Entries Fields) : Prop :=
  match found with
  | none => after = before
  | some item => after = Entries.put item.name item.document before ∧ (strict → item.name ∉ Entries.keys before)

structure Keeps (strict : Prop) (items : List ScannedItem) (entries : Entries Fields) : Prop where
  kept : entries = Entries.ofList (items.map ScannedItem.named)
  distinct : strict → (items.map ScannedItem.name).Nodup

/-- A walk over files that adds what each of them defines keeps all definitions, the later one of a name. -/
theorem scanned_of_foldlM {strict : Prop} {state : Type} (view : state → Entries Fields)
    {step : state → Path → Except Fault state} {define : Path → Except Fault (Option ScannedItem)}
    (each : ∀ before file after, step before file = .ok after →
      ∃ found, define file = .ok found ∧ Adds strict (view before) found (view after))
    {files : List Path} {start last : state} (ran : files.foldlM step start = .ok last) :
    ∃ items, files.filterMapM define = .ok items ∧
      view last = (items.map ScannedItem.named).foldl (fun entries pair => Entries.put pair.1 pair.2 entries)
        (view start) ∧
      (strict → Entries.Distinct (view start) →
        (Entries.keys (view start) ++ items.map ScannedItem.name).Nodup) := by
  induction files generalizing start with
  | nil =>
      rw [← pure_eq_ok.mp ran]
      exact ⟨[], List.filterMapM_nil, rfl, fun _ distinct => (List.append_nil _).symm ▸ distinct⟩
  | cons file rest ih =>
      rw [List.foldlM_cons] at ran
      obtain ⟨middle, first, later⟩ := bind_eq_ok.mp ran
      obtain ⟨items, others, whole, apart⟩ := ih later
      obtain ⟨found, defines, adds⟩ := each start file middle first
      rw [List.filterMapM_cons, defines, ok_bind]
      cases found with
      | none =>
          rw [show view middle = view start from adds] at whole apart
          exact ⟨items, others, whole, apart⟩
      | some item =>
          obtain ⟨added, fresh⟩ := adds
          refine ⟨item :: items, ?_, ?_, fun faults distinct => ?_⟩
          · dsimp only
            rw [others]
            rfl
          · rw [whole, added]
            rfl
          · have all := apart faults (added ▸ distinct.put _ _)
            have new : Entries.has item.name (view start) = false :=
              Bool.eq_false_iff.mpr fun present => fresh faults (Entries.has_iff_mem_keys.mp present)
            rw [added, Entries.keys_put, new] at all
            rwa [if_neg Bool.false_ne_true, List.append_assoc] at all

theorem scanned_items {base : Path} {kind : ItemKind} {home : Option Extension}
    (single : ¬(home.isSome ∧ kind ≠ .profile)) {entries : Entries Fields}
    (ran : (scan.items base kind.folder).content = .ok entries) :
    ∃ items, scan.scanned base kind home = .ok items ∧ Keeps (scan.policy = .error) items entries := by
  rw [items_eq, Act.content_lift_bind] at ran
  obtain ⟨files, listed, ran⟩ := bind_eq_ok.mp ran
  rw [Act.content_foldlM [] fun items file _ => fixed_addItem scan kind.folder items file] at ran
  have each (before : Entries Fields) (file : Path) (after : Entries Fields)
      (step : (scan.addItem kind.folder before file).content = .ok after) :
      ∃ found, scan.itemOf kind home file = .ok found ∧ Adds (scan.policy = .error) before found after := by
    obtain ⟨document, read, step⟩ :=
      (Act.settles_of_content scan.tree step).bind (fixed_document scan kind.folder file)
    obtain ⟨name, naming, step⟩ := step.bind (Act.fixed_lift _)
    rw [Act.content_lift] at naming
    refine ⟨some { home, file, name, document }, ?_, add_ok step.yields,
      fun strict => add_strict strict step.yields⟩
    unfold itemOf definedName
    rw [read, ok_bind, if_neg single, naming]
    rfl
  obtain ⟨items, found, kept, distinct⟩ := scanned_of_foldlM id each ran
  unfold scanned
  rw [listed, ok_bind]
  exact ⟨items, found, kept, fun strict => distinct strict .nil⟩

private theorem scanned_patchable {base : Path} {kind : ItemKind} {home : Option Extension}
    (patchable : home.isSome ∧ kind ≠ .profile) {found : Patchable}
    (ran : (scan.patchable base kind.folder).content = .ok found) :
    ∃ items, scan.scanned base kind home = .ok items ∧ Keeps (scan.policy = .error) items found.items := by
  rw [patchable_eq, Act.content_lift_bind] at ran
  obtain ⟨files, listed, ran⟩ := bind_eq_ok.mp ran
  rw [Act.content_foldlM _ fun found file _ => fixed_addPatchable scan kind.folder found file] at ran
  have each (before : Patchable) (file : Path) (after : Patchable)
      (step : (scan.addPatchable kind.folder before file).content = .ok after) :
      ∃ found, scan.itemOf kind home file = .ok found ∧
        Adds (scan.policy = .error) before.items found after.items := by
    obtain ⟨document, read, step⟩ :=
      (Act.settles_of_content scan.tree step).bind (fixed_document scan kind.folder file)
    obtain ⟨part, named, step⟩ := step.bind (Act.fixed_lift _)
    rw [Act.content_lift] at named
    unfold itemOf definedName
    rw [read, ok_bind, if_pos patchable, named, ok_bind]
    cases part with
    | patches name =>
        obtain ⟨added, _, step⟩ := Act.yields_bind step.yields
        rw [← Act.yields_pure.mp step]
        exact ⟨none, rfl, rfl⟩
    | defines name =>
        obtain ⟨added, adds, step⟩ := Act.yields_bind step.yields
        rw [← Act.yields_pure.mp step]
        exact ⟨some { home, file, name, document }, rfl, add_ok adds, fun strict => add_strict strict adds⟩
  obtain ⟨items, defined, kept, distinct⟩ := scanned_of_foldlM Patchable.items each ran
  unfold scanned
  rw [listed, ok_bind]
  exact ⟨items, defined, kept, fun strict => distinct strict .nil⟩

end Scan

/-! ### All definitions -/

namespace Compilation

variable {c : Compilation}

def scannedBase (c : Compilation) (kind : ItemKind) : Except Fault (List ScannedItem) :=
  c.baseScan.scanned c.settings.schema kind none

def scannedOf (c : Compilation) (kind : ItemKind) (e : Extension) : Except Fault (List ScannedItem) :=
  (Contribution.scan c.tree c.settings.schema c.settings.duplicates e).scanned e.path kind (some e)

/-- The definitions of a kind in the base schema and in all extensions. -/
def scanned (c : Compilation) (kind : ItemKind) : Except Fault (List ScannedItem) := do
  let own ← c.scannedBase kind
  let given ← (← c.found).mapM (c.scannedOf kind)
  return own ++ given.flatten

theorem scanned_baseSchema {base : Sources} (ran : c.baseSchema = .ok base) (kind : ItemKind) :
    ∃ items, c.scannedBase kind = .ok items ∧
      Scan.Keeps (c.settings.duplicates = .error) items (base.items kind) := by
  obtain ⟨_, _, ran⟩ := bind_eq_ok.mp ran
  obtain ⟨_, _, ran⟩ := bind_eq_ok.mp ran
  obtain ⟨classes, inClasses, ran⟩ := bind_eq_ok.mp ran
  obtain ⟨objects, inObjects, ran⟩ := bind_eq_ok.mp ran
  obtain ⟨profiles, inProfiles, ran⟩ := bind_eq_ok.mp ran
  rw [← pure_eq_ok.mp ran]
  cases kind with
  | eventClass => exact Scan.scanned_items (by simp) inClasses
  | object => exact Scan.scanned_items (by simp) inObjects
  | profile => exact Scan.scanned_items (by simp) inProfiles

theorem scanned_contribution {e : Extension} {contribution : Contribution}
    (ran : c.contribution e = .ok contribution) (kind : ItemKind) :
    ∃ items, c.scannedOf kind e = .ok items ∧
      Scan.Keeps (c.settings.duplicates = .error) items (contribution.items kind) := by
  obtain ⟨classes, objects, _, _, profiles, inClasses, inObjects, _, _, inProfiles, rfl⟩ :=
    Contribution.read_ok ran
  cases kind with
  | eventClass => exact Scan.scanned_patchable (by simp) inClasses
  | object => exact Scan.scanned_patchable (by simp) inObjects
  | profile => exact Scan.scanned_items (by simp) inProfiles

private theorem addScoped_stampedItems {kind : ItemKind} {e : Extension} {contribution : Contribution}
    {items : List ScannedItem} {strict : Prop} (extension : contribution.extension = e)
    (homes : ∀ item ∈ items, item.home = some e) (keeps : Scan.Keeps strict items (contribution.items kind))
    (base : Entries Fields) :
    addScoped contribution.extension base (stampedItems kind contribution) =
      (items.map ScannedItem.placed).foldl (fun entries pair => Entries.put pair.1 pair.2 entries) base := by
  have moved : addScoped contribution.extension base (stampedItems kind contribution) =
      Entries.putAll (Scope.within e.name) (Contribution.stampFields e) base (contribution.items kind) := by
    unfold addScoped stampedItems Entries.mapValues Entries.putAll
    rw [extension, List.foldl_map]
  rw [moved, keeps.kept, Entries.putAll_ofList fun _ _ => Scope.within_right_inj, Entries.putAll,
    List.foldl_map, List.foldl_map]
  refine List.foldl_ext _ _ _ fun entries item member => ?_
  have home := homes item member
  unfold ScannedItem.placed ScannedItem.key ScannedItem.fields
  rw [home]
  rfl

private theorem withStamped_scanned (kind : ItemKind) {extensions : List Extension}
    {contributions : List Contribution}
    (contributing : List.Forall₂ (fun e contribution => c.contribution e = .ok contribution) extensions
      contributions) (pairs : List (Text × Fields)) :
    ∃ given, extensions.mapM (c.scannedOf kind) = .ok given ∧
      withStamped kind (Entries.ofList pairs) contributions =
        Entries.ofList (pairs ++ given.flatten.map ScannedItem.placed) := by
  induction contributing generalizing pairs with
  | nil => exact ⟨[], rfl, congrArg Entries.ofList (List.append_nil pairs).symm⟩
  | @cons e contribution extensions contributions read _ ih =>
      obtain ⟨items, scanned, keeps⟩ := scanned_contribution read kind
      obtain ⟨given, others, whole⟩ := ih (pairs ++ items.map ScannedItem.placed)
      refine ⟨items :: given, ?_, ?_⟩
      · rw [List.mapM_cons, scanned, ok_bind, others]
        rfl
      · have placed := addScoped_stampedItems (extension_contribution read)
          (fun item member => (Scan.home_of_scanned scanned member).1) keeps (Entries.ofList pairs)
        rw [← Entries.ofList_append] at placed
        rw [List.flatten_cons, List.map_append, ← List.append_assoc, ← whole, ← placed]
        rfl

/-- In the base schema a definition is under its name. -/
theorem map_placed_of_base {items : List ScannedItem} (homes : ∀ item ∈ items, item.home = none) :
    items.map ScannedItem.placed = items.map ScannedItem.named := by
  refine List.map_congr_left fun item member => ?_
  have home := homes item member
  unfold ScannedItem.placed ScannedItem.key ScannedItem.fields
  rw [home]
  rfl

/-- The graph is built of the definitions of all homes under their keys, a later one in place of an
earlier one, written out and patched. -/
theorem Steps.scanned_items {graph : Graph} (steps : Steps c graph) (kind : ItemKind) :
    ∃ scanned items, c.scanned kind = .ok scanned ∧
      steps.definitions.items kind = .record (Entries.mapValues Value.record items) ∧
      Patched (Entries.ofList (scanned.map ScannedItem.placed)) items := by
  obtain ⟨items, defined, patched⟩ := steps.patched_items kind
  obtain ⟨own, ownScanned, keeps⟩ := scanned_baseSchema steps.reading kind
  obtain ⟨given, givenScanned, whole⟩ :=
    withStamped_scanned kind (mapM_eq_ok.mp steps.contributing) (own.map ScannedItem.named)
  have homes : ∀ item ∈ own, item.home = none := fun item member =>
    (Scan.home_of_scanned ownScanned member).1
  rw [keeps.kept, whole, ← map_placed_of_base homes, ← List.map_append] at patched
  refine ⟨own ++ given.flatten, items, ?_, defined, patched⟩
  unfold Compilation.scanned
  rw [ownScanned, ok_bind, steps.found_eq, ok_bind, givenScanned]
  rfl

private theorem nodup_scannedOf (strict : c.settings.duplicates = .error) {e : Extension}
    {contribution : Contribution} (read : c.contribution e = .ok contribution) {kind : ItemKind}
    {items : List ScannedItem} (scanned : c.scannedOf kind e = .ok items) :
    (items.map ScannedItem.key).Nodup := by
  obtain ⟨items', scanned', keeps⟩ := scanned_contribution read kind
  cases scanned.symm.trans scanned'
  have moved : items.map ScannedItem.key = (items.map ScannedItem.name).map (Scope.within e.name) := by
    rw [List.map_map]
    refine List.map_congr_left fun item member => ?_
    have home := (Scan.home_of_scanned scanned member).1
    unfold ScannedItem.key
    rw [home]
    rfl
  rw [moved]
  exact (keeps.distinct strict).map fun _ _ => Scope.within_right_inj

private theorem nodup_scannedOf_all (strict : c.settings.duplicates = .error) {kind : ItemKind}
    {extensions : List Extension} (plain : ∀ e ∈ extensions, e.name.hasSlash = false)
    (apart : extensions.Pairwise fun first second => first.name ≠ second.name)
    (readable : ∀ e ∈ extensions, ∃ contribution, c.contribution e = .ok contribution)
    {given : List (List ScannedItem)} (scanned : extensions.mapM (c.scannedOf kind) = .ok given) :
    (given.flatten.map ScannedItem.key).Nodup := by
  have each := mapM_eq_ok.mp scanned
  clear scanned
  induction each with
  | nil => exact List.nodup_nil
  | @cons e items extensions given one others ih =>
      obtain ⟨plainHead, plainRest⟩ := List.forall_mem_cons.mp plain
      obtain ⟨apartHead, apartRest⟩ := List.pairwise_cons.mp apart
      obtain ⟨⟨contribution, read⟩, readRest⟩ := List.forall_mem_cons.mp readable
      rw [List.flatten_cons, List.map_append, List.nodup_append]
      refine ⟨nodup_scannedOf strict read one, ih plainRest apartRest readRest, ?_⟩
      rintro _ here other there rfl
      obtain ⟨item, member, same⟩ := List.mem_map.mp here
      obtain ⟨item', member', same'⟩ := List.mem_map.mp there
      obtain ⟨later, known, inside⟩ := List.mem_flatten.mp member'
      obtain ⟨e', listed, scanned'⟩ := exists_left_of_mem others known
      have home := (Scan.home_of_scanned one member).1
      have home' := (Scan.home_of_scanned scanned' inside).1
      rw [← same', ScannedItem.key, ScannedItem.key, home, home'] at same
      exact apartHead e' listed (Scope.within_scope_inj plainHead (plainRest e' listed) same)

/-- A definition of the base schema under the scoped key of one of an extension. -/
def Clash (scanned : List ScannedItem) : Prop :=
  ∃ own ∈ scanned, ∃ other ∈ scanned, own.home = none ∧ other.home ≠ none ∧ own.key = other.key

instance (scanned : List ScannedItem) : Decidable (Clash scanned) :=
  inferInstanceAs (Decidable (∃ own ∈ scanned, ∃ other ∈ scanned, _))

/-- Where duplicates are faults, definitions share a key only across the base schema and an extension. -/
theorem Steps.nodup_scanned {graph : Graph} (steps : Steps c graph) (strict : c.settings.duplicates = .error)
    {kind : ItemKind} {scanned : List ScannedItem} (all : c.scanned kind = .ok scanned)
    (peaceful : ¬Clash scanned) : (scanned.map ScannedItem.key).Nodup := by
  obtain ⟨own, ownScanned, all⟩ := bind_eq_ok.mp all
  obtain ⟨extensions, found, all⟩ := bind_eq_ok.mp all
  obtain ⟨given, givenScanned, all⟩ := bind_eq_ok.mp all
  rw [← pure_eq_ok.mp all] at peaceful ⊢
  cases found.symm.trans steps.found_eq
  obtain ⟨own', ownScanned', keeps⟩ := scanned_baseSchema steps.reading kind
  cases ownScanned.symm.trans ownScanned'
  have homes : ∀ item ∈ own, item.home = none := fun item member =>
    (Scan.home_of_scanned ownScanned member).1
  have keys : own.map ScannedItem.key = own.map ScannedItem.name := by
    have placed := congrArg (List.map Prod.fst) (map_placed_of_base homes)
    rwa [List.map_map, List.map_map] at placed
  obtain ⟨plain, apart⟩ := distinct_of_locateExtensions (Act.settles_of_content c.tree steps.locating).yields
  have readable : ∀ e ∈ steps.extensions, ∃ contribution, c.contribution e = .ok contribution := by
    intro e member
    obtain ⟨contribution, _, read⟩ := exists_right_of_mem (mapM_eq_ok.mp steps.contributing) member
    exact ⟨contribution, read⟩
  rw [List.map_append, List.nodup_append]
  refine ⟨keys ▸ keeps.distinct strict, nodup_scannedOf_all strict plain apart readable givenScanned, ?_⟩
  rintro _ here other there rfl
  obtain ⟨item, member, same⟩ := List.mem_map.mp here
  obtain ⟨item', member', same'⟩ := List.mem_map.mp there
  obtain ⟨later, known, inside⟩ := List.mem_flatten.mp member'
  obtain ⟨e, _, scanned'⟩ := exists_left_of_mem (mapM_eq_ok.mp givenScanned) known
  refine peaceful ⟨item, List.mem_append_left _ member, item', List.mem_append_right _ member',
    homes item member, ?_, same.trans same'.symm⟩
  rw [(Scan.home_of_scanned scanned' inside).1]
  exact Option.some_ne_none e

private theorem origin_of_scanned {kind : ItemKind} {items : List ScannedItem} (ran : c.scanned kind = .ok items)
    {item : ScannedItem} (member : item ∈ items) :
    Entries.get? "_origin" item.document = some (.text item.file.text) := by
  obtain ⟨own, ownScanned, ran⟩ := bind_eq_ok.mp ran
  obtain ⟨extensions, _, ran⟩ := bind_eq_ok.mp ran
  obtain ⟨given, givenScanned, ran⟩ := bind_eq_ok.mp ran
  rw [← pure_eq_ok.mp ran] at member
  rcases List.mem_append.mp member with base | other
  · exact (Scan.home_of_scanned ownScanned base).2
  · obtain ⟨items, held, inside⟩ := List.mem_flatten.mp other
    obtain ⟨e, _, scanned⟩ := exists_left_of_mem (mapM_eq_ok.mp givenScanned) held
    exact (Scan.home_of_scanned scanned inside).2

end Compilation

/-- A graph with every definition: each is listed once unless there is a clash, classes and objects are left
out just where they are hidden, and each record is from the file and of the extension of its definition. -/
structure Graph.HoldsAll (graph : Graph) (scanned : ItemKind → List ScannedItem) : Prop where
  listed : ∀ kind, ¬Compilation.Clash (scanned kind) →
    graph.listed kind = (scanned kind).map ScannedItem.key ∧ (graph.listed kind).Nodup
  hidden : ∀ kind, ∀ entry ∈ graph.hierarchy kind, Entries.has entry.1 (graph.entities kind) = false ↔
    Entries.get? "hidden?" entry.2 = some (.bool true)
  entities : ∀ kind, ∀ entry ∈ graph.entities kind, ∃ item ∈ scanned kind, item.key = entry.1 ∧
    entry.2.origin = .text item.file.text ∧ entry.2.extension = item.owner
  records : ∀ entry ∈ graph.profiles, ∃ item ∈ scanned .profile, item.key = entry.1 ∧
    Entries.get? "_origin" entry.2.extras = some (.text item.file.text) ∧ entry.2.extension = item.owner

/-- An item that the graph is built of has the file and the extension of its definition. -/
theorem Compilation.Patched.exists_scanned {scanned : List ScannedItem} {items : Entries Fields}
    (patched : Compilation.Patched (Entries.ofList (scanned.map ScannedItem.placed)) items) {key : Text}
    {item : Fields} (held : (key, item) ∈ items) :
    ∃ definition ∈ scanned, definition.key = key ∧
      Entries.get? "_origin" item = Entries.get? "_origin" definition.document ∧
      Entries.orNull "extension" item = definition.owner := by
  obtain ⟨before, known, same⟩ := patched.mem_right held
  obtain ⟨definition, member, shape⟩ := List.mem_map.mp (Entries.mem_of_mem_ofList known)
  obtain ⟨rfl, rfl⟩ := Prod.mk.inj shape
  refine ⟨definition, member, rfl, ?_, ?_⟩
  · rw [same _ (by decide), definition.get?_fields (by decide)]
  · rw [← definition.orNull_extension]
    exact Entries.orNull_congr (same _ (by decide))

/-- A schema that is compiled without tolerance for duplicates has every definition that was scanned, unless
the base schema has a definition under a scoped key of an extension. -/
theorem Settings.holds_definitions {s : Settings} {tree : Tree} {graph : Graph}
    (strict : s.duplicates = .error) (compiled : (s.compile tree).Yields graph) :
    ∃ scanned, (∀ kind, (s.compilation tree).scanned kind = .ok (scanned kind)) ∧ graph.HoldsAll scanned := by
  obtain ⟨steps⟩ := exists_steps compiled
  choose scanned items all defined patched using
    fun kind => steps.scanned_items kind
  have accounts := Graph.accounts steps.keyed steps.building
  have inner (kind : ItemKind) :
      (steps.definitions.items kind).inner = Entries.mapValues Value.record (items kind) := by
    rw [defined kind]
    rfl
  have keys (kind : ItemKind) (distinct : ((scanned kind).map ScannedItem.key).Nodup) :
      graph.listed kind = (scanned kind).map ScannedItem.key := by
    have placed : ((scanned kind).map ScannedItem.placed).map Prod.fst = (scanned kind).map ScannedItem.key :=
      List.map_map
    have kept := Entries.foldl_put_of_nodup ([] : Entries Fields) (placed.symm ▸ distinct)
    rw [accounts.listed, inner, Entries.keys_mapValues, (patched kind).keys_eq, Entries.ofList, kept]
    exact placed
  have from_ (kind : ItemKind) {key : Text} {mark : Option Nat} {item : Fields}
      (held : (key, Value.object mark item) ∈ (steps.definitions.items kind).inner) :
      ∃ definition ∈ scanned kind, definition.key = key ∧
        Entries.get? "_origin" item = some (.text definition.file.text) ∧
        Entries.orNull "extension" item = definition.owner := by
    rw [inner] at held
    obtain ⟨⟨_, own⟩, member, same⟩ := List.mem_map.mp held
    cases same
    obtain ⟨definition, found, named, origin, owner⟩ := (patched kind).exists_scanned member
    exact ⟨definition, found, named, origin.trans (Compilation.origin_of_scanned (all kind) found), owner⟩
  refine ⟨scanned, all, fun kind peaceful => ?_, accounts.hidden, fun kind entry member => ?_,
    fun entry member => ?_⟩
  · have distinct := steps.nodup_scanned strict (all kind) peaceful
    rw [keys kind distinct]
    exact ⟨rfl, distinct⟩
  · obtain ⟨mark, item, held, comes⟩ := accounts.entities kind entry member
    obtain ⟨definition, found, named, origin, owner⟩ := from_ kind (Entries.mem_of_get? held)
    refine ⟨definition, found, named, ?_, comes.extension.trans owner⟩
    rw [comes.origin, Entries.orNull, Entries.getOr, origin]
    rfl
  · obtain ⟨mark, item, held, comes⟩ := accounts.records entry member
    obtain ⟨definition, found, named, origin, owner⟩ := from_ .profile held
    exact ⟨definition, found, named, comes.origin.trans origin, comes.extension.trans owner⟩

/-! ### The definitions of a schema and an extension -/

namespace Settings

/-- A class, two objects and a profile of a schema, and the class `login`, a patch and a profile of an
extension. -/
def homesTree (login : Text) (part : Fields) : Tree :=
  .ofDocuments [
    (["schema", "categories.json"], [("attributes", .record [])]),
    (["schema", "dictionary.json"], [("attributes", .record [])]),
    (["schema", "events", "base_event.json"], [("name", .text "base_event")]),
    (["schema", "events", "access", "login.json"], [("name", .text login), ("uid", .int 1)]),
    (["schema", "objects", "host.json"], [("name", .text "host")]),
    (["schema", "objects", "parts", "part.json"], part),
    (["schema", "profiles", "cloud.json"], [("name", .text "cloud")]),
    (["corp", "extension.json"], [("name", .text "corp"), ("uid", .int 7)]),
    (["corp", "events", "login.json"], [("name", .text "login"), ("uid", .int 1)]),
    (["corp", "objects", "host.json"], [("extends", .text "host")]),
    (["corp", "profiles", "cloud.json"], [("name", .text "cloud")])]

/-- Definitions of the same names in both homes, and a hidden one. -/
def twoHomes : Tree := homesTree "login" [("name", .text "_part")]

def homeKeys : ItemKind → List Text
  | .eventClass => ["base_event", "login", "corp/login"]
  | .object => ["host", "_part"]
  | .profile => ["cloud", "corp/cloud"]

theorem holds_definitions_twoHomes : ∃ graph scanned, (withCorp.compile twoHomes).Yields graph ∧
    (∀ kind, (withCorp.compilation twoHomes).scanned kind = .ok (scanned kind)) ∧
    (∀ kind, graph.listed kind = homeKeys kind) ∧ graph.HoldsAll scanned := by
  have evaluated : ((withCorp.compile twoHomes).outcome {}).1.toOption.map (fun _ => ()) = some () := by
    decide +kernel
  have found (kind : ItemKind) : ((withCorp.compilation twoHomes).scanned kind).toOption.map
      (fun items => (items.map ScannedItem.key, decide (Compilation.Clash items))) =
        some (homeKeys kind, false) := by
    cases kind <;> decide +kernel
  obtain ⟨graph, compiled, _⟩ := Act.exists_of_outcome evaluated
  obtain ⟨scanned, all, holds⟩ := holds_definitions rfl compiled
  refine ⟨graph, scanned, compiled, all, fun kind => ?_, holds⟩
  have shown := found kind
  rw [all kind] at shown
  obtain ⟨keys, peaceful⟩ := Prod.mk.inj (Option.some.inj shown)
  exact (holds.listed kind (of_decide_eq_false peaceful)).1.trans keys

/-- A class of the schema that is named like the one of the extension, and an object of the schema that says
it is of the extension. -/
def mixedHomes : Tree := homesTree "corp/login" [("name", .text "part"), ("extension", .text "corp")]

/-- Two classes are scanned under one key, and only one is left. The object has the extension that it says,
though it is of the schema. -/
theorem mixed_homes_collide : ∃ graph classes objects, (withCorp.compile mixedHomes).Yields graph ∧
    (withCorp.compilation mixedHomes).scanned .eventClass = .ok classes ∧
    (withCorp.compilation mixedHomes).scanned .object = .ok objects ∧
    classes.map ScannedItem.key = (["base_event", "corp/login", "corp/login"] : List Text) ∧
    graph.listed .eventClass = (["base_event", "corp/login"] : List Text) ∧
    objects.map (fun item => (item.key, item.home)) =
      ([("host", none), ("part", none)] : List (Text × Option Extension)) ∧
    (Entries.get? "part" graph.objects).map Entity.extension = some (.text "corp") := by
  have evaluated : ((withCorp.compile mixedHomes).outcome {}).1.toOption.map (fun graph =>
      (graph.listed .eventClass, (Entries.get? "part" graph.objects).map Entity.extension)) =
      some ((["base_event", "corp/login"] : List Text), some (.text "corp")) := by
    decide +kernel
  have classes : ((withCorp.compilation mixedHomes).scanned .eventClass).toOption.map
      (List.map ScannedItem.key) = some (["base_event", "corp/login", "corp/login"] : List Text) := by
    decide +kernel
  have objects : ((withCorp.compilation mixedHomes).scanned .object).toOption.map
      (List.map fun item => (item.key, item.home)) = some ([("host", none), ("part", none)] :
        List (Text × Option Extension)) := by
    decide +kernel
  obtain ⟨graph, compiled, shown⟩ := Act.exists_of_outcome evaluated
  obtain ⟨classItems, inClasses, classKeys⟩ := Option.map_eq_some_iff.mp classes
  obtain ⟨objectItems, inObjects, objectHomes⟩ := Option.map_eq_some_iff.mp objects
  obtain ⟨listed, extension⟩ := Prod.mk.inj shown
  exact ⟨graph, classItems, objectItems, compiled, toOption_eq_some.mp inClasses,
    toOption_eq_some.mp inObjects, classKeys, listed, objectHomes, extension⟩

end Settings

end EventSchema
