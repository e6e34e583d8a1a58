import EventSchema.Proofs.Cache
import EventSchema.Proofs.Ensures
import EventSchema.Proofs.Extension
import EventSchema.Proofs.Walk
import Mathlib.Data.List.Forall2

/-!
Which folders of extensions are found.

A folder is one of an extension if it has a manifest. A given path leads to the folder of a manifest that it
names, or to the folders of extensions at it and below it that have no other one in between. Every folder that a
path leads to is found, once, and no other; they come in the order of the paths, and below one path in the order
of the names where the ways to them part.
-/

set_option autoImplicit false

namespace EventSchema

variable {tree : Tree}

/-! ### Files and folders -/

theorem Node.sizeOf_lt_of_mem {name : Text} {inner entries : List (Text × Node)}
    (member : (name, Node.folder inner) ∈ entries) : sizeOf (Node.folder inner) < sizeOf (Node.folder entries) := by
  have bound := List.sizeOf_lt_of_mem member
  simp only [Prod.mk.sizeOf_spec, Node.folder.sizeOf_spec] at bound ⊢
  omega

/-- The way to a folder goes through a subfolder. -/
theorem Node.exists_subfolder_of_walk {name : Text} {rest : List Text} {entries found : List (Text × Node)}
    (plain : name ≠ Path.dotDot) (leads : Node.walk [] (.folder entries) (name :: rest) = .ok (.folder found)) :
    ∃ inner, (name, .folder inner) ∈ entries := by
  rw [Node.walk_folder, if_neg plain] at leads
  cases listed : Entries.get? name entries with
  | none =>
      rw [listed] at leads
      cases leads
  | some child =>
      cases child with
      | folder inner => exact ⟨inner, Entries.mem_of_get? listed⟩
      | file content =>
          rw [listed] at leads
          cases rest with
          | nil => cases leads
          | cons => cases leads

namespace Tree

private theorem isFile_iff {path : Path} : tree.isFile path = true ↔
    path.nameFault? = none ∧ ∃ bytes, tree.node? path = .ok (.file bytes) := by
  unfold isFile named?
  cases path.nameFault? with
  | some fault => simp
  | none =>
      rw [Option.isSome_none, if_neg Bool.false_ne_true]
      cases tree.node? path with
      | error fault => simp [Except.toOption]
      | ok node => cases node <;> simp [Except.toOption]

theorem isFolder_iff {path : Path} : tree.isFolder path = true ↔
    ∃ entries, tree.named? path = some (.folder entries) := by
  unfold isFolder
  split
  · rename_i entries found
    exact iff_of_true rfl ⟨entries, found⟩
  · rename_i other
    exact iff_of_false Bool.false_ne_true fun ⟨entries, found⟩ => other entries found

theorem nameable_of_named? {path : Path} {node : Node} (found : tree.named? path = some node) :
    path.nameFault? = none := by
  unfold named? at found
  split at found
  · cases found
  · rename_i nameable
    exact Option.not_isSome_iff_eq_none.mp nameable

private theorem not_isFolder_of_isFile {path : Path} (present : tree.isFile path = true) :
    ¬tree.isFolder path = true := by
  intro inside
  obtain ⟨_, bytes, leads⟩ := isFile_iff.mp present
  obtain ⟨entries, named⟩ := isFolder_iff.mp inside
  cases leads.symm.trans (node?_of_named? named)

theorem exists_folder {folder : Path} {name : Text} {bytes : List UInt8} (plain : name ≠ Path.dotDot)
    (leads : tree.node? (folder.down [name]) = .ok (.file bytes)) :
    ∃ entries, tree.node? folder = .ok (.folder entries) ∧ (name, .file bytes) ∈ entries := by
  rw [tree.node?_down folder (List.forall_mem_singleton.mpr plain)] at leads
  cases found : tree.node? folder with
  | error fault =>
      rw [found] at leads
      cases leads
  | ok node =>
      rw [found] at leads
      change Node.walk [] node [name] = _ at leads
      cases node with
      | file content => cases leads
      | folder entries =>
          rw [Node.walk_folder, if_neg plain] at leads
          cases listed : Entries.get? name entries with
          | none =>
              rw [listed] at leads
              cases leads
          | some child =>
              rw [listed] at leads
              cases leads
              exact ⟨entries, rfl, Entries.mem_of_get? listed⟩

end Tree

namespace Path

private theorem child_of_name {name : Text} (plain : ofText name = ⟨.here, [name]⟩) (folder : Path) :
    folder.child name = folder.down [name] := by
  rw [child, plain]
  rfl

private theorem parent_down (folder : Path) (name : Text) : (folder.down [name]).parent = folder := by
  rw [parent, down, List.dropLast_concat]

private theorem down_nil (folder : Path) : folder.down [] = folder := by
  rw [down, List.append_nil]

private theorem down_down (folder : Path) (way further : List Text) :
    (folder.down way).down further = folder.down (way ++ further) := by
  rw [down, down, down, List.append_assoc]

private theorem down_cons (folder : Path) (name : Text) (rest : List Text) :
    (folder.down [name]).down rest = folder.down (name :: rest) := down_down folder [name] rest

private theorem down_injective (folder : Path) {way other : List Text} (same : folder.down way = folder.down other) :
    way = other := List.append_cancel_left (congrArg names same)

end Path

/-! ### Manifests -/

namespace Extension

/-- The version file of a folder declares an extension: it gives a name and a uid. -/
def Declares (tree : Tree) (folder : Path) : Prop :=
  tree.isFile (folder.child versionName) = true ∧
    ∃ info, Fragment.readObject tree (folder.child versionName) = .ok info ∧
      Entries.has "name" info = true ∧ Entries.has "uid" info = true

inductive Manifest (tree : Tree) (folder : Path) : Path → Prop
  | version (declares : Declares tree folder) : Manifest tree folder (folder.child versionName)
  | extension (silent : ¬Declares tree folder) (present : tree.isFile (folder.child manifestName) = true) :
      Manifest tree folder (folder.child manifestName)

def Marked (tree : Tree) (folder : Path) : Prop := ∃ manifest, Manifest tree folder manifest

private theorem child_versionName (folder : Path) : folder.child versionName = folder.down [versionName] :=
  Path.child_of_name (by decide) folder

private theorem child_manifestName (folder : Path) : folder.child manifestName = folder.down [manifestName] :=
  Path.child_of_name (by decide) folder

namespace Manifest

variable {folder manifest other : Path}

theorem unique (one : Manifest tree folder manifest) (two : Manifest tree folder other) : manifest = other := by
  cases one with
  | version declares =>
      cases two with
      | version => rfl
      | extension silent => exact absurd declares silent
  | extension silent =>
      cases two with
      | version declares => exact absurd declares silent
      | extension => rfl

theorem parent (one : Manifest tree folder manifest) : manifest.parent = folder := by
  cases one with
  | version => rw [child_versionName, Path.parent_down]
  | extension => rw [child_manifestName, Path.parent_down]

theorem isFile (one : Manifest tree folder manifest) : tree.isFile manifest = true := by
  cases one with
  | version declares => exact declares.1
  | extension _ present => exact present

theorem exists_folder (one : Manifest tree folder manifest) :
    ∃ entries, tree.node? folder = .ok (.folder entries) := by
  obtain ⟨_, bytes, leads⟩ := Tree.isFile_iff.mp one.isFile
  obtain ⟨name, plain, rfl⟩ : ∃ name, name ≠ Path.dotDot ∧ manifest = folder.down [name] := by
    cases one with
    | version => exact ⟨versionName, by decide, child_versionName folder⟩
    | extension => exact ⟨manifestName, by decide, child_manifestName folder⟩
  obtain ⟨entries, here, _⟩ := Tree.exists_folder plain leads
  exact ⟨entries, here⟩

end Manifest

private theorem manifest_of_findManifest {folder : Path} {found? : Option Path}
    (ran : (findManifest tree folder).Yields found?) (manifest : Path) :
    found? = some manifest ↔ Manifest tree folder manifest := by
  unfold findManifest at ran
  extract_lets version extension fallback at ran
  have silently (silent : ¬Declares tree folder) (same : fallback = found?) :
      found? = some manifest ↔ Manifest tree folder manifest := by
    subst same
    unfold fallback
    constructor
    · intro found
      split at found
      · rename_i present
        exact Option.some.inj found ▸ .extension silent present
      · cases found
    · rintro (declares | ⟨_, present⟩)
      · exact absurd declares silent
      · exact if_pos present
  split at ran
  · rename_i present
    split at ran
    · rename_i info read
      have yielded := Act.yields_pure.mp ran
      by_cases declares : (Entries.has "name" info && Entries.has "uid" info) = true
      · rw [if_pos declares] at yielded
        have declared : Declares tree folder := ⟨present, info, read, Bool.and_eq_true_iff.mp declares⟩
        subst yielded
        constructor
        · intro same
          exact Option.some.inj same ▸ .version declared
        · exact fun other => congrArg some ((Manifest.version declared).unique other)
      · rw [if_neg declares] at yielded
        refine silently (fun ⟨_, other, read', names⟩ => declares ?_) yielded
        cases read.symm.trans read'
        exact Bool.and_eq_true_iff.mpr names
    · rename_i fault read
      obtain ⟨_, _, ran⟩ := Act.yields_bind ran
      refine silently (fun ⟨_, other, read', _⟩ => ?_) (Act.yields_pure.mp ran)
      cases read.symm.trans read'
    · exact absurd ran Act.not_yields_throw
  · rename_i absent
    exact silently (fun declares => absent declares.1) (Act.yields_pure.mp ran)

/-! ### Searching a folder -/

def Topmost (tree : Tree) (top folder : Path) : Prop :=
  ∃ way, (∀ name ∈ way, name ≠ Path.dotDot) ∧ folder = top.down way ∧
    ∀ shorter, shorter <+: way → shorter ≠ way → ¬Marked tree (top.down shorter)

/-- Where the ways down to two folders part, the names are in order. -/
def Earlier (top first later : Path) : Prop :=
  ∃ common name other rest others, first = top.down (common ++ name :: rest) ∧
    later = top.down (common ++ other :: others) ∧ name ≠ other ∧ name.le other = true

theorem Earlier.ne {top first later : Path} (earlier : Earlier top first later) : first ≠ later := by
  obtain ⟨common, name, other, rest, others, rfl, rfl, apart, _⟩ := earlier
  intro same
  have ways := List.append_cancel_left (top.down_injective same)
  exact apart (List.cons.inj ways).1

theorem Earlier.up {top : Path} {above : List Text} {first later : Path}
    (earlier : Earlier (top.down above) first later) : Earlier top first later := by
  obtain ⟨common, name, other, rest, others, rfl, rfl, apart, ordered⟩ := earlier
  refine ⟨above ++ common, name, other, rest, others, ?_, ?_, apart, ordered⟩
  · rw [Path.down_down, List.append_assoc]
  · rw [Path.down_down, List.append_assoc]

/-- What a search below a folder finds: the folders of extensions that are topmost there, with their manifests,
in order. -/
structure Searched (tree : Tree) (top : Path) (found : Found) : Prop where
  mem : ∀ entry, entry ∈ found ↔ Manifest tree entry.1 entry.2 ∧ Topmost tree top entry.1
  order : found.Pairwise fun first later => Earlier top first.1 later.1

private theorem mem_searchEntries {path : Path} {entries : List (Text × Node)} {action : Text × Act Found} :
    action ∈ searchEntries tree path entries ↔ ∃ inner, (action.1, .folder inner) ∈ entries ∧
      action.2 = search tree (path.down [action.1]) (.folder inner) := by
  induction entries with
  | nil => simp [searchEntries]
  | cons head rest ih =>
      obtain ⟨name, node⟩ := head
      cases node with
      | file content => simp [searchEntries, ih]
      | folder inner =>
          rw [searchEntries, List.mem_cons, ih]
          constructor
          · rintro (rfl | ⟨inner', member, same⟩)
            · exact ⟨inner, List.mem_cons_self .., rfl⟩
            · exact ⟨inner', List.mem_cons_of_mem _ member, same⟩
          · rintro ⟨inner', member, same⟩
            rcases List.mem_cons.mp member with here | there
            · cases here
              exact .inl (Prod.ext rfl same)
            · exact .inr ⟨inner', there, same⟩

private theorem names_searchEntries (path : Path) (entries : List (Text × Node)) :
    ((searchEntries tree path entries).map Prod.fst).Sublist (Entries.keys entries) := by
  induction entries with
  | nil => exact List.Sublist.refl _
  | cons head rest ih =>
      obtain ⟨name, node⟩ := head
      cases node with
      | file content => exact ih.cons name
      | folder inner => exact ih.cons_cons name

/-- Actions in the order of their names have found something each, and all of it is put together in that order. -/
theorem parts_of_inOrder {actions : List (Text × Act Found)} {found : Found} (ran : (inOrder actions).Yields found) :
    ∃ parts, List.Forall₂ (fun action part => action.2.Yields part) (actions.mergeSort fun a b => a.1.le b.1) parts ∧
      found = parts.flatten := by
  unfold inOrder at ran
  generalize (actions.mergeSort fun a b => a.1.le b.1) = sorted at ran ⊢
  refine Act.foldlM_progress (motive := fun done found => ∃ parts,
    List.Forall₂ (fun action part => action.2.Yields part) done parts ∧ found = parts.flatten) ran ⟨[], .nil, rfl⟩ ?_
  rintro done action found next ⟨parts, each, rfl⟩ step
  obtain ⟨part, own, same⟩ := Act.yields_bind step
  refine ⟨parts ++ [part], List.rel_append each (.cons own .nil), ?_⟩
  rw [← Act.yields_pure.mp same, List.flatten_append, List.flatten_singleton]

private theorem searched_marked {top manifest : Path} (marked : Manifest tree top manifest) :
    Searched tree top [(top, manifest)] where
  mem := by
    rintro ⟨folder, other⟩
    rw [List.mem_singleton, Prod.mk.injEq]
    constructor
    · rintro ⟨rfl, rfl⟩
      refine ⟨marked, [], List.forall_mem_nil _, (Path.down_nil _).symm, fun shorter before apart => ?_⟩
      exact absurd (List.prefix_nil.mp before) apart
    · rintro ⟨held, way, plain, rfl, topmost⟩
      cases way with
      | nil =>
          rw [Path.down_nil] at held ⊢
          exact ⟨rfl, held.unique marked⟩
      | cons name rest =>
          refine absurd ⟨manifest, ?_⟩ (topmost [] List.nil_prefix (List.cons_ne_nil _ _).symm)
          rwa [Path.down_nil]
  order := List.pairwise_singleton _ _

/-- Below a folder without a manifest, the topmost folders are those below its subfolders. -/
theorem topmost_cons {top folder : Path} {name : Text} (plain : name ≠ Path.dotDot) (unmarked : ¬Marked tree top)
    (topmost : Topmost tree (top.down [name]) folder) : Topmost tree top folder := by
  obtain ⟨way, plains, rfl, clear⟩ := topmost
  refine ⟨name :: way, List.forall_mem_cons.mpr ⟨plain, plains⟩, Path.down_cons .., fun shorter before apart => ?_⟩
  cases shorter with
  | nil => rwa [Path.down_nil]
  | cons first rest =>
      obtain ⟨rfl, inside⟩ := List.cons_prefix_cons.mp before
      have deeper := clear rest inside fun same => apart (by rw [same])
      rwa [Path.down_cons] at deeper

theorem Topmost.below {top : Path} {name : Text} {rest : List Text} (plain : ∀ name ∈ rest, name ≠ Path.dotDot)
    (clear : ∀ shorter, shorter <+: name :: rest → shorter ≠ name :: rest → ¬Marked tree (top.down shorter)) :
    Topmost tree (top.down [name]) (top.down (name :: rest)) := by
  refine ⟨rest, plain, (Path.down_cons ..).symm, fun shorter before apart => ?_⟩
  rw [Path.down_cons]
  exact clear (name :: shorter) (List.cons_prefix_cons.mpr ⟨rfl, before⟩) fun same => apart (List.cons.inj same).2

private theorem exists_subfolder {top folder : Path} {entries : List (Text × Node)}
    (here : tree.node? top = .ok (.folder entries)) (unmarked : ¬Marked tree top) (marked : Marked tree folder)
    (topmost : Topmost tree top folder) :
    ∃ name inner, (name, .folder inner) ∈ entries ∧ Topmost tree (top.down [name]) folder := by
  obtain ⟨way, plain, rfl, clear⟩ := topmost
  cases way with
  | nil =>
      rw [Path.down_nil] at marked
      exact absurd marked unmarked
  | cons name rest =>
      obtain ⟨own, plains⟩ := List.forall_mem_cons.mp plain
      obtain ⟨manifest, held⟩ := marked
      obtain ⟨found, leads⟩ := held.exists_folder
      rw [tree.node?_down top plain, here] at leads
      obtain ⟨inner, member⟩ := Node.exists_subfolder_of_walk own leads
      exact ⟨name, inner, member, .below plains clear⟩

/-- Whatever is put together in the order of the names is in order. -/
theorem pairwise_parts {α β : Type} {before : α → α → Prop} {relation : α → β → Prop} {after : β → β → Prop}
    {items : List α} {parts : List β} (related : List.Forall₂ relation items parts) (ordered : items.Pairwise before)
    (each : ∀ {first later part other}, before first later → relation first part → relation later other →
      after part other) : parts.Pairwise after := by
  induction related with
  | nil => exact .nil
  | cons own _ ih =>
      obtain ⟨first, later⟩ := List.pairwise_cons.mp ordered
      refine .cons (fun other member => ?_) (ih later)
      obtain ⟨origin, among, held⟩ := exists_left_of_mem ‹_› member
      exact each (first origin among) own held

/-- What the searches of the subfolders of a folder without a manifest find, put together in the order of their
names, is what a search of the folder finds. -/
theorem searched_parts {top : Path} {entries : List (Text × Node)} {parts : List Found}
    (here : tree.node? top = .ok (.folder entries)) (distinct : (Entries.keys entries).Nodup)
    (unmarked : ¬Marked tree top)
    (searched : List.Forall₂ (fun action part => action.1 ≠ Path.dotDot ∧ Searched tree (top.down [action.1]) part)
      ((searchEntries tree top entries).mergeSort fun a b => a.1.le b.1) parts) :
    Searched tree top parts.flatten where
  mem := by
    intro entry
    rw [List.mem_flatten]
    constructor
    · rintro ⟨part, among, member⟩
      obtain ⟨action, _, own, inside⟩ := exists_left_of_mem searched among
      obtain ⟨held, topmost⟩ := (inside.mem entry).mp member
      exact ⟨held, topmost_cons own unmarked topmost⟩
    · rintro ⟨held, topmost⟩
      obtain ⟨name, inner, member, topmost⟩ := exists_subfolder here unmarked ⟨_, held⟩ topmost
      have searches : (name, search tree (top.down [name]) (.folder inner)) ∈
          (searchEntries tree top entries).mergeSort fun a b => a.1.le b.1 :=
        List.mem_mergeSort.mpr (mem_searchEntries.mpr ⟨inner, member, rfl⟩)
      obtain ⟨part, among, _, inside⟩ := exists_right_of_mem searched searches
      exact ⟨part, among, (inside.mem entry).mpr ⟨held, topmost⟩⟩
  order := by
    rw [List.pairwise_flatten]
    constructor
    · intro part among
      obtain ⟨action, _, _, inside⟩ := exists_left_of_mem searched among
      exact inside.order.imp Earlier.up
    · refine pairwise_parts searched (Node.pairwise_names (distinct.sublist (names_searchEntries top entries))) ?_
      rintro ⟨name, _⟩ ⟨other, _⟩ part later ⟨apart, ordered⟩ ⟨_, inside⟩ ⟨_, inside'⟩ entry member entry' member'
      obtain ⟨_, way, _, same, _⟩ := (inside.mem entry).mp member
      obtain ⟨_, way', _, same', _⟩ := (inside'.mem entry').mp member'
      exact ⟨[], name, other, way, way', same.trans (Path.down_cons ..), same'.trans (Path.down_cons ..),
        apart, ordered⟩

/-- A search finds exactly the topmost folders of extensions. -/
theorem searched_of_search {top : Path} {node : Node} {found : Found} (listed : node.Listed)
    (here : tree.node? top = .ok node) (ran : (search tree top node).Yields found) : Searched tree top found := by
  match node with
  | .file content =>
      rw [search] at ran
      cases Act.yields_pure.mp ran
      refine ⟨fun entry => ⟨fun impossible => absurd impossible List.not_mem_nil, ?_⟩, .nil⟩
      rintro ⟨held, way, plain, same, _⟩
      obtain ⟨entries, leads⟩ := held.exists_folder
      rw [same, tree.node?_down top plain, here] at leads
      cases way with
      | nil => cases leads
      | cons => cases leads
  | .folder entries =>
      rw [search] at ran
      obtain ⟨manifest?, finds, ran⟩ := Act.yields_bind ran
      have manifests := manifest_of_findManifest finds
      cases manifest? with
      | some manifest => exact Act.yields_pure.mp ran ▸ searched_marked ((manifests manifest).mp rfl)
      | none =>
          have unmarked : ¬Marked tree top := fun ⟨manifest, held⟩ => by cases (manifests manifest).mpr held
          obtain ⟨⟨distinct, plain⟩, each⟩ := listed
          obtain ⟨parts, yielded, rfl⟩ := parts_of_inOrder ran
          have searches : ∀ action ∈ (searchEntries tree top entries).mergeSort fun a b => a.1.le b.1,
              ∃ inner, (action.1, .folder inner) ∈ entries ∧
                action.2 = search tree (top.down [action.1]) (.folder inner) :=
            fun action member => mem_searchEntries.mp (List.mem_mergeSort.mp member)
          refine searched_parts here distinct unmarked (((List.forall₂_and_left _ _).mpr ⟨searches, yielded⟩).imp ?_)
          rintro ⟨name, act⟩ part ⟨⟨inner, member, same⟩, ran⟩
          dsimp only at same ran
          rw [same] at ran
          obtain ⟨own, leads⟩ := Node.walk_entry [] distinct plain member []
          have below : tree.node? (top.down [name]) = .ok (.folder inner) := by
            rw [tree.node?_down top (List.forall_mem_singleton.mpr own), here]
            exact leads
          exact ⟨own, searched_of_search (Node.listed_of_mem each member) below ran⟩
termination_by sizeOf node
decreasing_by exact Node.sizeOf_lt_of_mem member

/-! ### Given paths -/

/-- A given path is taken as it stands if there is something, or else below the home folder. -/
def chosen (tree : Tree) (home path : Path) : Path := if tree.present path then path else home.join path

def candidate (tree : Tree) (home path : Path) : Path := tree.resolve (chosen tree home path)

inductive Leads (tree : Tree) (home path folder : Path) : Prop
  | file (present : tree.isFile (candidate tree home path) = true)
      (named : (candidate tree home path).name = manifestName ∨ (candidate tree home path).name = versionName)
      (own : folder = (candidate tree home path).parent) (marked : Marked tree folder)
  | folder (present : tree.isFolder (candidate tree home path) = true)
      (topmost : Topmost tree (candidate tree home path) folder) (marked : Marked tree folder)

structure LocatedAt (tree : Tree) (home path : Path) (found : Found) : Prop where
  mem : ∀ entry, entry ∈ found ↔ Manifest tree entry.1 entry.2 ∧ Leads tree home path entry.1
  order : found.Pairwise fun first later => Earlier (candidate tree home path) first.1 later.1

variable {home path : Path}

theorem Leads.marked {folder : Path} (leads : Leads tree home path folder) : Marked tree folder := by
  cases leads with
  | file _ _ _ marked => exact marked
  | folder _ _ marked => exact marked

private theorem locatedAt_file {manifest : Path} (present : tree.isFile (candidate tree home path) = true)
    (named : (candidate tree home path).name = manifestName ∨ (candidate tree home path).name = versionName)
    (held : Manifest tree (candidate tree home path).parent manifest) :
    LocatedAt tree home path [((candidate tree home path).parent, manifest)] where
  mem := by
    rintro ⟨folder, other⟩
    rw [List.mem_singleton, Prod.mk.injEq]
    constructor
    · rintro ⟨rfl, rfl⟩
      exact ⟨held, .file present named rfl ⟨_, held⟩⟩
    · rintro ⟨held', leads⟩
      cases leads with
      | file _ _ own =>
          cases own
          exact ⟨rfl, held'.unique held⟩
      | folder inside => exact absurd inside (Tree.not_isFolder_of_isFile present)
  order := List.pairwise_singleton _ _

private theorem locatedAt_folder (listed : tree.root.Listed) {entries : List (Text × Node)} {found : Found}
    (named : tree.named? (candidate tree home path) = some (.folder entries))
    (ran : (search tree (candidate tree home path) (.folder entries)).Yields found) :
    LocatedAt tree home path found := by
  have leads := Tree.node?_of_named? named
  have inside : tree.isFolder (candidate tree home path) = true := Tree.isFolder_iff.mpr ⟨entries, named⟩
  have searched := searched_of_search (Node.listed_walk (List.forall_mem_nil _) listed leads) leads ran
  refine ⟨fun entry => (searched.mem entry).trans (and_congr_right fun held => ?_), searched.order⟩
  constructor
  · exact fun topmost => .folder inside topmost ⟨_, held⟩
  · intro leads
    cases leads with
    | file present => exact absurd inside (Tree.not_isFolder_of_isFile present)
    | folder _ topmost => exact topmost

private theorem locatedAt_nothing (silent : tree.isFile (candidate tree home path) = true →
      (candidate tree home path).name = manifestName ∨ (candidate tree home path).name = versionName →
      ¬Marked tree (candidate tree home path).parent)
    (outside : ¬tree.isFolder (candidate tree home path) = true) : LocatedAt tree home path [] where
  mem := by
    refine fun entry => ⟨fun impossible => absurd impossible List.not_mem_nil, ?_⟩
    rintro ⟨_, leads⟩
    cases leads with
    | file present named own marked => exact absurd (own ▸ marked) (silent present named)
    | folder present => exact absurd present outside
  order := .nil

private theorem locatedAt_of_locateAt (listed : tree.root.Listed) {found : Found}
    (ran : (locateAt tree home path).Yields found) : LocatedAt tree home path found := by
  unfold locateAt at ran
  obtain ⟨target, resolved, ran⟩ := Act.yields_bind ran
  have same : target = candidate tree home path := Tree.resolveNamed_ok (Act.yields_lift.mp resolved)
  subst same
  extract_lets rest at ran
  have searched (silent : tree.isFile (candidate tree home path) = true →
      (candidate tree home path).name = manifestName ∨ (candidate tree home path).name = versionName →
      ¬Marked tree (candidate tree home path).parent) (ran : (rest none).Yields found) :
      LocatedAt tree home path found := by
    unfold rest at ran
    split at ran
    · cases ‹none = some _›
    · exact locatedAt_folder listed ‹_› ran
    · rename_i noFolder
      obtain ⟨_, _, ran⟩ := Act.yields_bind ran
      cases Act.yields_pure.mp ran
      refine locatedAt_nothing silent fun inside => ?_
      obtain ⟨entries, named⟩ := Tree.isFolder_iff.mp inside
      exact noFolder entries named
  split at ran
  · rename_i asked
    obtain ⟨direct, finds, ran⟩ := Act.yields_bind ran
    have manifests := manifest_of_findManifest finds
    cases direct with
    | some manifest =>
        rw [Bool.and_eq_true, Bool.or_eq_true, decide_eq_true_eq, decide_eq_true_eq] at asked
        cases Act.yields_pure.mp ran
        exact locatedAt_file asked.1 asked.2 ((manifests manifest).mp rfl)
    | none =>
        refine searched (fun _ _ ⟨manifest, held⟩ => ?_) ran
        cases (manifests manifest).mpr held
  · rename_i asked
    obtain ⟨direct, nothing, ran⟩ := Act.yields_bind ran
    cases Act.yields_pure.mp nothing
    refine searched (fun present named => absurd ?_ asked) ran
    rw [Bool.and_eq_true, Bool.or_eq_true, decide_eq_true_eq, decide_eq_true_eq]
    exact ⟨present, named⟩

/-! ### Searches come to an end -/

/-- The bytes spell a number of more digits than are read. -/
def tooLong (bytes : List UInt8) : Bool :=
  match Utf8.decode bytes with
  | .ok text => match Json.read ⟨Fragment.uniformLines text.codes⟩ with
    | .hugeNumber => true
    | _ => false
  | .error _ => false

mutual
/-- No version file of the tree has a number of more digits than are read. -/
def legible : Node → Bool
  | .file _ => true
  | .folder entries => legibleEntries entries
def legibleEntries : List (Text × Node) → Bool
  | [] => true
  | (name, .file bytes) :: rest => !(name = versionName && tooLong bytes) && legibleEntries rest
  | (_, .folder inner) :: rest => legible (.folder inner) && legibleEntries rest
end

private theorem legible_of_mem {entries : List (Text × Node)} (clear : legibleEntries entries = true) :
    ∀ entry ∈ entries, legible entry.2 = true ∧
      (entry.1 = versionName → ∀ bytes, entry.2 = .file bytes → tooLong bytes = false) := by
  induction entries with
  | nil => exact List.forall_mem_nil _
  | cons head rest ih =>
      obtain ⟨name, node⟩ := head
      cases node with
      | file content =>
          obtain ⟨own, others⟩ := Bool.and_eq_true_iff.mp clear
          refine List.forall_mem_cons.mpr ⟨⟨rfl, ?_⟩, ih others⟩
          intro (named : name = versionName) bytes same
          cases same
          simpa [named] using own
      | folder inner =>
          obtain ⟨own, others⟩ := Bool.and_eq_true_iff.mp clear
          refine List.forall_mem_cons.mpr ⟨⟨own, ?_⟩, ih others⟩
          rintro _ bytes same
          cases same

/-- A file that cannot be read is no document, or it has such a number. -/
theorem fault_of_parse {file : Path} {bytes : List UInt8} {fault : Fault}
    (failed : Fragment.parse file bytes = .error fault) :
    (∃ cause, fault = .document cause) ∨ tooLong bytes = true := by
  unfold Fragment.parse at failed
  unfold tooLong
  split at failed
  · exact .inl ⟨_, (Except.error.inj failed).symm⟩
  · split at failed
    · exact .inl ⟨_, (Except.error.inj failed).symm⟩
    · rename_i decoded _ huge
      rw [decoded]
      dsimp only
      rw [huge]
      exact .inr rfl
    · cases failed
    · exact .inl ⟨_, (Except.error.inj failed).symm⟩

private theorem readable_of_legible (clear : legible tree.root = true) {folder : Path} {bytes : List UInt8}
    (leads : tree.node? (folder.child versionName) = .ok (.file bytes)) : tooLong bytes = false := by
  rw [child_versionName] at leads
  obtain ⟨entries, here, member⟩ := Tree.exists_folder (by decide) leads
  have inside : ∀ entries, legible (.folder entries) = true → ∀ entry ∈ entries, legible entry.2 = true :=
    fun entries clear entry member => (legible_of_mem clear entry member).1
  have below := Node.walk_keeps (fun node => legible node = true) inside (List.forall_mem_nil _) clear here
  exact (legible_of_mem below _ member).2 rfl bytes rfl

private theorem ensures_findManifest (clear : legible tree.root = true) (folder : Path) :
    (findManifest tree folder).Ensures fun _ => True := by
  unfold findManifest
  extract_lets version extension fallback
  split
  · rename_i present
    split
    · exact Act.ensures_pure trivial
    · exact (Act.ensures_note _).bind fun _ _ => Act.ensures_pure trivial
    · rename_i fault other failed
      obtain ⟨named, bytes, leads⟩ := Tree.isFile_iff.mp present
      have parsed : Fragment.readObject tree version = Fragment.parse version bytes := by
        unfold Fragment.readObject Tree.content Tree.checkName
        rw [named, ok_bind, leads]
        rfl
      rcases fault_of_parse (parsed ▸ failed) with ⟨cause, rfl⟩ | long
      · exact absurd rfl (other cause)
      · exact absurd (readable_of_legible clear leads) (by rw [long]; decide)
  · exact Act.ensures_pure trivial

private theorem ensures_inOrder {actions : List (Text × Act Found)}
    (each : ∀ action ∈ actions, action.2.Ensures fun _ => True) : (inOrder actions).Ensures fun _ => True := by
  unfold inOrder
  refine Act.ensures_foldlM trivial fun found action member _ => ?_
  exact (each action (List.mem_mergeSort.mp member)).bind fun _ _ => Act.ensures_pure trivial

private theorem ensures_search (clear : legible tree.root = true) (path : Path) (node : Node) :
    (search tree path node).Ensures fun _ => True := by
  match node with
  | .file content =>
      rw [search]
      exact Act.ensures_pure trivial
  | .folder entries =>
      rw [search]
      refine (ensures_findManifest clear path).bind fun manifest _ => ?_
      cases manifest with
      | some manifest => exact Act.ensures_pure trivial
      | none =>
          refine ensures_inOrder fun action member => ?_
          obtain ⟨inner, among, same⟩ := mem_searchEntries.mp member
          rw [same]
          exact ensures_search clear _ (.folder inner)
termination_by sizeOf node
decreasing_by exact Node.sizeOf_lt_of_mem among

private theorem ensures_locateAt (clear : legible tree.root = true)
    (nameable : (chosen tree home path).nameFault? = none) :
    (locateAt tree home path).Ensures fun _ => True := by
  unfold locateAt
  have resolved : tree.resolveNamed (chosen tree home path) = .ok (candidate tree home path) := by
    unfold Tree.resolveNamed Tree.checkName
    rw [nameable]
    rfl
  have resolves : (liftM (tree.resolveNamed (chosen tree home path)) : Act Path).Ensures fun _ => True :=
    Act.ensures_lift ⟨_, resolved, trivial⟩
  refine resolves.bind fun target _ => ?_
  extract_lets rest
  have ends (direct : Option Path) : (rest direct).Ensures fun _ => True := by
    unfold rest
    split
    · exact Act.ensures_pure trivial
    · exact ensures_search clear _ _
    · exact (Act.ensures_note _).bind fun _ _ => Act.ensures_pure trivial
  split
  · exact (ensures_findManifest clear _).bind fun direct _ => ends direct
  · have nothing : (pure none : Act (Option Path)).Ensures fun _ => True := Act.ensures_pure trivial
    exact nothing.bind fun direct _ => ends direct

/-! ### All given paths -/

/-- Of the given paths, the first that leads to one of two folders leads to the first of them; if it leads to
the other, too, then that comes later below it. -/
def Sooner (tree : Tree) (home : Path) (paths : List Path) (first later : Path) : Prop :=
  ∃ before path after, paths = before ++ path :: after ∧
    (∀ other ∈ before, ¬Leads tree home other first ∧ ¬Leads tree home other later) ∧
    Leads tree home path first ∧ (Leads tree home path later → Earlier (candidate tree home path) first later)

theorem Sooner.ne {paths : List Path} {first later : Path} (sooner : Sooner tree home paths first later) :
    first ≠ later := by
  obtain ⟨_, _, _, _, _, leads, ordered⟩ := sooner
  rintro rfl
  exact (ordered leads).ne rfl

theorem Sooner.append {paths : List Path} {first later : Path} (sooner : Sooner tree home paths first later)
    (more : List Path) : Sooner tree home (paths ++ more) first later := by
  obtain ⟨before, path, after, rfl, others, leads⟩ := sooner
  exact ⟨before, path, after ++ more, by rw [List.append_assoc, List.cons_append], others, leads⟩

private theorem exists_first {paths : List Path} {folder : Path} (led : ∃ path ∈ paths, Leads tree home path folder) :
    ∃ before path after, paths = before ++ path :: after ∧ (∀ other ∈ before, ¬Leads tree home other folder) ∧
      Leads tree home path folder := by
  induction paths with
  | nil =>
      obtain ⟨_, impossible, _⟩ := led
      cases impossible
  | cons head rest ih =>
      by_cases here : Leads tree home head folder
      · exact ⟨[], head, rest, rfl, List.forall_mem_nil _, here⟩
      · obtain ⟨path, member, leads⟩ := led
        rcases List.mem_cons.mp member with rfl | there
        · exact absurd leads here
        · obtain ⟨before, path, after, rfl, others, leads⟩ := ih ⟨path, there, leads⟩
          exact ⟨head :: before, path, after, rfl, List.forall_mem_cons.mpr ⟨here, others⟩, leads⟩

structure LocatedOn (tree : Tree) (home : Path) (paths : List Path) (found : Found) : Prop where
  mem : ∀ entry, entry ∈ found ↔ Manifest tree entry.1 entry.2 ∧ ∃ path ∈ paths, Leads tree home path entry.1
  order : found.Pairwise fun first later => Sooner tree home paths first.1 later.1

def fresh (known part : Found) : Found := part.filter fun entry => !(known.any fun other => other.1 = entry.1)

private theorem mem_fresh {done : List Path} {known part : Found} (before : LocatedOn tree home done known)
    (own : LocatedAt tree home path part) {entry : Path × Path} :
    entry ∈ fresh known part ↔ entry ∈ part ∧ ∀ other ∈ done, ¬Leads tree home other entry.1 := by
  rw [fresh, List.mem_filter, Bool.not_eq_true', List.any_eq_false]
  refine and_congr_right fun among => ?_
  constructor
  · intro unknown other listed leads
    have held := (before.mem entry).mpr ⟨((own.mem entry).mp among).1, other, listed, leads⟩
    exact unknown entry held (decide_eq_true rfl)
  · intro unled other member same
    obtain ⟨_, path, listed, leads⟩ := (before.mem other).mp member
    exact unled path listed (of_decide_eq_true same ▸ leads)

private theorem sooner_of_fresh {done : List Path} {first later : Path}
    (led : ∃ path ∈ done, Leads tree home path first)
    (unled : ∀ path ∈ done, ¬Leads tree home path later) : Sooner tree home done first later := by
  obtain ⟨ahead, path, after, rfl, others, leads⟩ := exists_first led
  refine ⟨ahead, path, after, rfl, fun other member => ⟨others other member, ?_⟩, leads, fun also => ?_⟩
  · exact unled other (List.mem_append_left _ member)
  · exact absurd also (unled path (List.mem_append_right _ (List.mem_cons_self ..)))

/-- What one more path leads to is found after the rest, as far as it was not found before. -/
theorem locatedOn_concat {done : List Path} {known part : Found} (before : LocatedOn tree home done known)
    (own : LocatedAt tree home path part) : LocatedOn tree home (done ++ [path]) (part.foldl Found.add known) := by
  have distinct : (part.map Prod.fst).Nodup :=
    List.pairwise_map.mpr (own.order.imp fun earlier => earlier.ne)
  have added : part.foldl Found.add known = known ++ fresh known part := foldl_unless_known Prod.fst known distinct
  rw [added]
  constructor
  · intro entry
    rw [List.mem_append, before.mem, mem_fresh before own, own.mem]
    constructor
    · rintro (⟨held, other, listed, leads⟩ | ⟨⟨held, leads⟩, _⟩)
      · exact ⟨held, other, List.mem_append_left _ listed, leads⟩
      · exact ⟨held, path, List.mem_append_right _ (List.mem_singleton_self path), leads⟩
    · rintro ⟨held, other, listed, leads⟩
      by_cases led : ∃ other ∈ done, Leads tree home other entry.1
      · exact .inl ⟨held, led⟩
      · have unled : ∀ other ∈ done, ¬Leads tree home other entry.1 := fun other old leads => led ⟨other, old, leads⟩
        have here := List.mem_singleton.mp ((List.mem_append.mp listed).resolve_left fun old => unled other old leads)
        exact .inr ⟨⟨held, here ▸ leads⟩, unled⟩
  · rw [List.pairwise_append]
    refine ⟨before.order.imp fun sooner => sooner.append [path], ?_, fun first known later new => ?_⟩
    · refine (own.order.filter _).imp_of_mem fun {first later} here there earlier => ?_
      obtain ⟨among, unled⟩ := (mem_fresh before own).mp here
      obtain ⟨_, unled'⟩ := (mem_fresh before own).mp there
      exact ⟨done, path, [], rfl, fun other member => ⟨unled other member, unled' other member⟩,
        ((own.mem first).mp among).2, fun _ => earlier⟩
    · obtain ⟨_, unled⟩ := (mem_fresh before own).mp new
      exact (sooner_of_fresh ((before.mem first).mp known).2 unled).append [path]

private theorem locatedOn_of_foldlM (listed : tree.root.Listed) {paths : List Path} {found : Found}
    (ran : (paths.foldlM (fun found path => do return (← locateAt tree home path).foldl Found.add found)
      ([] : Found) : Act Found).Yields found) : LocatedOn tree home paths found := by
  refine Act.foldlM_progress ran ⟨fun entry => ?_, .nil⟩ fun done path known next before step => ?_
  · refine ⟨fun impossible => absurd impossible List.not_mem_nil, ?_⟩
    rintro ⟨_, path, impossible, _⟩
    cases impossible
  · obtain ⟨part, own, same⟩ := Act.yields_bind step
    exact Act.yields_pure.mp same ▸ locatedOn_concat before (locatedAt_of_locateAt listed own)

/-! ### Extensions -/

/-- The manifest of a folder gives its extension the name and the uid. -/
def Identified (tree : Tree) (folder : Path) (name : Text) (uid : Int) : Prop :=
  ∃ manifest, Manifest tree folder manifest ∧ Identifies tree manifest name uid

theorem Identified.unique {folder : Path} {name other : Text} {uid number : Int} (one : Identified tree folder name uid)
    (two : Identified tree folder other number) : name = other ∧ uid = number := by
  obtain ⟨manifest, held, identifies⟩ := one
  obtain ⟨manifest', held', identifies'⟩ := two
  cases held.unique held'
  exact identifies.unique identifies'

structure Discovers (tree : Tree) (home : Path) (paths : List Path) (isPlatform : Bool) (version : Value)
    (extensions : List Extension) : Prop where
  mem : ∀ folder, folder ∈ extensions.map Extension.path ↔ ∃ path ∈ paths, Leads tree home path folder
  once : (extensions.map Extension.path).Nodup
  order : extensions.Pairwise fun first later => Sooner tree home paths first.path later.path
  reads : ∀ e ∈ extensions, ∃ manifest, Manifest tree e.path manifest ∧
    read tree manifest isPlatform version = .ok e

variable {paths : List Path} {isPlatform : Bool} {version : Value} {extensions : List Extension}

theorem Discovers.named (discovers : Discovers tree home paths isPlatform version extensions) {e : Extension}
    (member : e ∈ extensions) : Identified tree e.path e.name e.uid := by
  obtain ⟨manifest, held, ran⟩ := discovers.reads e member
  exact ⟨manifest, held, (read_ok ran).1⟩

theorem discovers_of_locate (listed : tree.root.Listed)
    (ran : (locate tree home paths isPlatform version).Yields extensions) :
    Discovers tree home paths isPlatform version extensions := by
  unfold locate at ran
  obtain ⟨found, folds, ran⟩ := Act.yields_bind ran
  have located := locatedOn_of_foldlM listed folds
  have each : List.Forall₂ (fun (entry : Path × Path) e => e.path = entry.1 ∧ Manifest tree entry.1 entry.2 ∧
      read tree entry.2 isPlatform version = .ok e) found extensions := by
    have member : ∀ entry ∈ found, Manifest tree entry.1 entry.2 :=
      fun entry among => ((located.mem entry).mp among).1
    refine ((List.forall₂_and_left _ _).mpr ⟨member, Act.yields_mapM ran⟩).imp ?_
    rintro ⟨folder, manifest⟩ e ⟨held, ran⟩
    obtain ⟨own, read, ran⟩ := Act.yields_bind ran
    obtain ⟨_, _, same⟩ := Act.yields_bind ran
    cases Act.yields_pure.mp same
    have read := Act.yields_lift.mp read
    exact ⟨(read_ok read).2.trans held.parent, held, read⟩
  have ordered : extensions.Pairwise fun first later => Sooner tree home paths first.path later.path := by
    refine pairwise_parts each located.order ?_
    rintro first later e other sooner ⟨same, _⟩ ⟨same', _⟩
    rwa [same, same']
  refine ⟨fun folder => ?_, List.pairwise_map.mpr (ordered.imp Sooner.ne), ordered, fun e member => ?_⟩
  · rw [List.mem_map]
    constructor
    · rintro ⟨e, member, rfl⟩
      obtain ⟨entry, among, same, _⟩ := exists_left_of_mem each member
      exact same ▸ ((located.mem entry).mp among).2
    · rintro ⟨path, member, leads⟩
      obtain ⟨manifest, held⟩ := leads.marked
      have among := (located.mem (folder, manifest)).mpr ⟨held, path, member, leads⟩
      obtain ⟨e, member, same, _⟩ := exists_right_of_mem each among
      exact ⟨e, member, same⟩
  · obtain ⟨entry, _, same, held, read⟩ := exists_left_of_mem each member
    exact ⟨entry.2, same ▸ held, read⟩

/-- Where the given paths can be named, what is on the way can be read and the manifests give a name and a uid,
the extensions are located. -/
theorem ensures_locate (isPlatform : Bool) (version : Value) (listed : tree.root.Listed)
    (clear : legible tree.root = true)
    (nameable : ∀ path ∈ paths, (chosen tree home path).nameFault? = none)
    (valid : ∀ path ∈ paths, ∀ folder, Leads tree home path folder → ∃ name uid, Identified tree folder name uid) :
    (locate tree home paths isPlatform version).Ensures (Discovers tree home paths isPlatform version) := by
  have ends : (locate tree home paths isPlatform version).Ensures fun _ => True := by
    unfold locate
    have folds : (paths.foldlM (fun found path => do return (← locateAt tree home path).foldl Found.add found)
        ([] : Found) : Act Found).Ensures fun _ => True := by
      refine Act.ensures_foldlM trivial fun found path member _ => ?_
      exact (ensures_locateAt clear (nameable path member)).bind fun _ _ => Act.ensures_pure trivial
    refine folds.yields.bind fun found located => ?_
    have located := locatedOn_of_foldlM listed located.1
    refine Act.Ensures.imp (?_ : Act.Ensures _ (List.Forall₂ (fun _ _ => True) found)) fun _ _ => trivial
    refine Act.ensures_mapM fun entry member => ?_
    obtain ⟨held, path, among, leads⟩ := (located.mem entry).mp member
    obtain ⟨name, uid, manifest, held', identifies⟩ := valid path among entry.1 leads
    obtain ⟨e, read⟩ := (held.unique held' ▸ identifies).exists_read isPlatform version
    have reads : (liftM (Extension.read tree entry.2 isPlatform version) : Act Extension).Ensures fun _ => True :=
      Act.ensures_lift ⟨e, read, trivial⟩
    exact reads.bind fun _ _ => (Act.ensures_note _).bind fun _ _ => Act.ensures_pure trivial
  exact ends.yields.imp fun extensions ran => discovers_of_locate listed ran.1

end Extension

end EventSchema
