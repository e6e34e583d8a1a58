import EventSchema.Proofs.Include.Content
import EventSchema.Proofs.Include.Trimmed
import EventSchema.Proofs.Walk

/-!
Trees whose files have some names deleted from their directives.

Two trees have the same folders and files, and a file of the second one may spell its document with fewer
names in its directives. A path then leads to the same place in both, names are looked for in the same places,
and what is read under one is the same fragment but for those names, or stops with the same exception.
-/

set_option autoImplicit false

namespace EventSchema

open Include

variable {gone : Text → Prop}

theorem Fragment.parse_elsewhere {path : Path} {bytes : List UInt8} {document : Fields}
    (spelled : parse path bytes = .ok document) (other : Path) : parse other bytes = .ok document := by
  unfold parse at spelled ⊢
  split at spelled
  · cases spelled
  · split at spelled
    · cases spelled
    · cases spelled
    · exact spelled
    · cases spelled

mutual
inductive Node.Trimmed (gone : Text → Prop) : Node → Node → Prop
  | same (bytes : List UInt8) : Node.Trimmed gone (.file bytes) (.file bytes)
  | file {bytes kept : List UInt8} {document other : Fields}
      (spelled : ∀ path, Fragment.parse path bytes = .ok document)
      (spelledKept : ∀ path, Fragment.parse path kept = .ok other) (trimmed : TrimmedDocument gone document other) :
      Node.Trimmed gone (.file bytes) (.file kept)
  | folder {entries kept : List (Text × Node)} (trimmed : Node.TrimmedEntries gone entries kept) :
      Node.Trimmed gone (.folder entries) (.folder kept)
inductive Node.TrimmedEntries (gone : Text → Prop) : List (Text × Node) → List (Text × Node) → Prop
  | nil : Node.TrimmedEntries gone [] []
  | cons {node other : Node} {entries kept : List (Text × Node)} (name : Text)
      (first : Node.Trimmed gone node other) (rest : Node.TrimmedEntries gone entries kept) :
      Node.TrimmedEntries gone ((name, node) :: entries) ((name, other) :: kept)
end

namespace Node

/-! ### Looking up -/

theorem TrimmedEntries.get? {entries kept : List (Text × Node)} (trimmed : TrimmedEntries gone entries kept)
    (name : Text) : Option.Rel (Trimmed gone) (Entries.get? name entries) (Entries.get? name kept) := by
  induction entries generalizing kept with
  | nil =>
      cases trimmed
      exact .none
  | cons head rest ih =>
      cases trimmed with
      | cons name first rest =>
          rw [Entries.get?_cons, Entries.get?_cons]
          split
          · exact .some first
          · exact ih rest

/-- Two lookups find nodes that are the same but for names, or fail alike. -/
inductive Found (gone : Text → Prop) : Except LookupFault Node → Except LookupFault Node → Prop
  | ok {node other : Node} (trimmed : Trimmed gone node other) : Found gone (.ok node) (.ok other)
  | error (fault : LookupFault) : Found gone (.error fault) (.error fault)

theorem Trimmed.walk {node other : Node} (trimmed : Trimmed gone node other) {above others : List Node}
    (outside : List.Forall₂ (Trimmed gone) above others) (names : List Text) :
    Found gone (Node.walk above node names) (Node.walk others other names) := by
  induction names generalizing node other above others with
  | nil =>
      rw [Node.walk, Node.walk]
      exact .ok trimmed
  | cons name rest ih =>
      cases trimmed with
      | same => exact .error _
      | file => exact .error _
      | @folder entries kept inside =>
          rw [walk_folder, walk_folder]
          split
          · cases outside with
            | nil => exact ih (.folder inside) .nil
            | cons up more => exact ih up more
          · have child := inside.get? name
            generalize Entries.get? name entries = left, Entries.get? name kept = right at child
            cases child with
            | none => exact .error _
            | some child => exact ih child (.cons (.folder inside) outside)

/-! ### The files of a node -/

def ways (files : List (List Text × List UInt8)) : List (List Text) := files.map Prod.fst

/-- Each subfolder with the names that lead to its files. -/
def waysBelow (folders : List (Text × List (List Text × List UInt8))) : List (Text × List (List Text)) :=
  folders.map fun folder => (folder.1, ways folder.2)

private theorem ways_files (above : List Text) (entries : List (Text × Node)) :
    ways (files above (.folder entries)) =
      (((ownFiles entries).map Prod.fst).mergeSort fun a b => a.le b).map (fun name => above ++ [name]) ++
        ((waysBelow (folderFiles above entries)).mergeSort fun a b => a.1.le b.1).flatMap Prod.snd := by
  have own : ((ownFiles entries).mergeSort fun a b => a.1.le b.1).map Prod.fst =
      ((ownFiles entries).map Prod.fst).mergeSort fun a b => a.le b :=
    List.map_mergeSort fun _ _ _ _ => rfl
  have below : ((folderFiles above entries).mergeSort fun a b => a.1.le b.1).map
        (fun folder => (folder.1, ways folder.2)) =
      (waysBelow (folderFiles above entries)).mergeSort fun a b => a.1.le b.1 :=
    List.map_mergeSort fun _ _ _ _ => rfl
  rw [← own, ← below, files, ways, List.map_append, List.map_map, List.map_map, List.map_flatMap, List.flatMap_map]
  rfl

mutual
private theorem Trimmed.ways_eq {node other : Node} (above : List Text) (trimmed : Trimmed gone node other) :
    ways (node.files above) = ways (other.files above) := by
  cases trimmed with
  | same => rfl
  | file => rfl
  | folder inside =>
      rw [ways_files, ways_files, inside.ownFiles_eq, inside.folderFiles_eq above]
private theorem TrimmedEntries.ownFiles_eq {entries kept : List (Text × Node)}
    (trimmed : TrimmedEntries gone entries kept) :
    (ownFiles entries).map Prod.fst = (ownFiles kept).map Prod.fst := by
  cases trimmed with
  | nil => rfl
  | cons name first rest =>
      cases first with
      | same => rw [ownFiles, ownFiles, List.map_cons, List.map_cons, rest.ownFiles_eq]
      | file => rw [ownFiles, ownFiles, List.map_cons, List.map_cons, rest.ownFiles_eq]
      | folder inside => exact rest.ownFiles_eq
private theorem TrimmedEntries.folderFiles_eq {entries kept : List (Text × Node)} (above : List Text)
    (trimmed : TrimmedEntries gone entries kept) :
    waysBelow (folderFiles above entries) = waysBelow (folderFiles above kept) := by
  cases trimmed with
  | nil => rfl
  | cons name first rest =>
      cases first with
      | same => exact rest.folderFiles_eq above
      | file => exact rest.folderFiles_eq above
      | folder inside =>
          rw [folderFiles, folderFiles, waysBelow, List.map_cons,
            (Trimmed.folder inside).ways_eq (above ++ [name])]
          exact congrArg (_ :: ·) (rest.folderFiles_eq above)
end

end Node

structure Tree.Trimmed (gone : Text → Prop) (tree spared : Tree) : Prop where
  root : tree.root.Trimmed gone spared.root
  directory : tree.directory = spared.directory

namespace Tree.Trimmed

variable {tree spared : Tree}

theorem node? (trimmed : tree.Trimmed gone spared) (path : Path) :
    Node.Found gone (tree.node? path) (spared.node? path) := by
  unfold Tree.node?
  rw [trimmed.directory]
  exact trimmed.root.walk .nil _

private theorem resolve_eq (trimmed : tree.Trimmed gone spared) (path : Path) : tree.resolve path =
    spared.resolve path := by
  unfold Tree.resolve
  rw [trimmed.directory]

theorem resolveNamed_eq (trimmed : tree.Trimmed gone spared) (path : Path) :
    tree.resolveNamed path = spared.resolveNamed path := by
  unfold Tree.resolveNamed
  rw [trimmed.resolve_eq]

private theorem isFile_eq (trimmed : tree.Trimmed gone spared) (path : Path) : tree.isFile path =
    spared.isFile path := by
  have found := trimmed.node? path
  unfold Tree.isFile Tree.named?
  generalize tree.node? path = left, spared.node? path = right at found
  by_cases unnameable : path.nameFault?.isSome = true
  · rw [if_pos unnameable, if_pos unnameable]
  · rw [if_neg unnameable, if_neg unnameable]
    cases found with
    | error fault => rfl
    | ok inside =>
        cases inside with
        | same | file | folder => rfl

/-- An expansion may enter the same files. -/
theorem candidates_eq (trimmed : tree.Trimmed gone spared) : candidates tree = candidates spared := by
  have paths (tree : Tree) : candidates tree = (Node.ways (tree.root.files [])).map (Path.mk .top) := by
    unfold candidates Node.ways
    rw [List.map_map]
    rfl
  rw [paths, paths, trimmed.root.ways_eq]

private theorem find_eq (trimmed : tree.Trimmed gone spared) (places : Places) (name : Text) :
    places.find tree name = places.find spared name := by
  cases places with
  | schema | rule => rfl
  | extension folder base =>
      unfold Places.find
      dsimp only
      rw [trimmed.isFile_eq, trimmed.isFile_eq]

end Tree.Trimmed

namespace Include

variable {tree spared : Tree}

theorem ofFile_eq (tree : Tree) (path : Path) : Fragment.ofFile tree path =
    tree.content path >>= fun bytes => Fragment.parse path bytes >>= Fragment.annotate (some path) := by
  unfold Fragment.ofFile Fragment.readObject
  rw [bind_assoc]

private theorem trimmed_ofFile (trimmed : tree.Trimmed gone spared) (path : Path) :
    Concur (TrimmedFragment gone) (Fragment.ofFile tree path) (Fragment.ofFile spared path) := by
  have itself : Fragment.ofFile tree path = Fragment.ofFile spared path →
      Concur (TrimmedFragment gone) (Fragment.ofFile tree path) (Fragment.ofFile spared path) := by
    intro same
    rw [← same]
    apply Concur.refl
    intro fragment ran
    exact (trimmedItem_refl (Fragment.document_ofFile ran).single).fragment
  have found := trimmed.node? path
  rw [ofFile_eq, ofFile_eq] at itself ⊢
  unfold Tree.content at itself ⊢
  generalize tree.node? path = left, spared.node? path = right at found itself ⊢
  cases found with
  | error fault => exact itself rfl
  | ok inside =>
      cases inside with
      | same bytes => exact itself rfl
      | folder entries =>
          cases Tree.checkName path with
          | error fault => exact .error (.refl fault)
          | ok _ => exact .error (.refl _)
      | file spelled spelledKept trimmed =>
          cases Tree.checkName path with
          | error fault => exact .error (.refl fault)
          | ok _ =>
              dsimp only [bind, Except.bind]
              rw [spelled, spelledKept]
              exact trimmed.annotate (some path)

/-- The same file is found under a name, or none with the same exception. -/
theorem trimmed_find (trimmed : tree.Trimmed gone spared) (places : Places) (name : Text) :
    Concur (fun file other => file.1 = other.1 ∧ TrimmedFragment gone file.2 other.2)
      (find tree places name).content (find spared places name).content := by
  rw [content_find, content_find, trimmed.find_eq]
  refine .bind (.refl fun _ _ => rfl) fun path _ same => ?_
  rw [← same, trimmed.resolveNamed_eq]
  refine .bind (.refl fun _ _ => rfl) fun resolved _ same => ?_
  rw [← same, Fragment.content_load, Fragment.content_load, trimmed.resolveNamed_eq]
  refine .bind (.bind (.refl fun _ _ => rfl) fun key _ same => ?_) fun fragment other related => .ok ⟨rfl, related⟩
  rw [← same]
  exact trimmed_ofFile trimmed key

end Include

end EventSchema
