import EventSchema.Proofs.Outcome
import EventSchema.Proofs.Tree

/-!
The order in which a tree is walked.

Texts are compared code by code, which is a total order, so a list of texts is sorted in one way. A walk lists
the files of a folder by their names, and then what is in its subfolders, one after another by their names. Two
files are told apart where the ways to them part, so the walk lists each file once, and there is only one such
list.
-/

set_option autoImplicit false

namespace EventSchema

/-! ### The order of texts -/

namespace Text

theorem isEmpty_iff {text : Text} : text.isEmpty = true ↔ text = ∅ := by
  obtain ⟨codes⟩ := text
  constructor
  · intro empty
    exact congrArg Text.mk (List.isEmpty_iff.mp empty)
  · intro same
    rw [same]
    rfl

private theorem codesLe_total (first second : List Nat) : (codesLe first second || codesLe second first) = true := by
  induction first generalizing second with
  | nil => simp [codesLe]
  | cons a rest ih =>
      cases second with
      | nil => simp [codesLe]
      | cons b others =>
          rcases Nat.lt_trichotomy a b with less | rfl | more
          · simp [codesLe, less]
          · simpa [codesLe] using ih others
          · simp [codesLe, more]

private theorem codesLe_trans {first second third : List Nat} (one : codesLe first second = true)
    (two : codesLe second third = true) : codesLe first third = true := by
  induction first generalizing second third with
  | nil => simp [codesLe]
  | cons a rest ih =>
      cases second with
      | nil => cases one
      | cons b others =>
          cases third with
          | nil => cases two
          | cons c last =>
              simp only [codesLe, Bool.or_eq_true, Bool.and_eq_true, decide_eq_true_eq, beq_iff_eq] at one two ⊢
              rcases one with less | ⟨rfl, one⟩
              · rcases two with more | ⟨rfl, _⟩
                · exact .inl (Nat.lt_trans less more)
                · exact .inl less
              · rcases two with less | ⟨rfl, two⟩
                · exact .inl less
                · exact .inr ⟨rfl, ih one two⟩

private theorem le_total (first second : Text) : (first.le second || second.le first) = true := codesLe_total ..

private theorem le_trans (first second third : Text) (one : first.le second = true) (two : second.le third = true) :
    first.le third = true := codesLe_trans one two

theorem perm_sort (texts : List Text) : (sort texts).Perm texts := List.mergeSort_perm ..

theorem pairwise_sort (texts : List Text) :
    (sort texts).Pairwise fun first later => first.le later = true :=
  List.pairwise_mergeSort le_trans le_total texts

end Text

/-! ### Walks -/

namespace Node

mutual
/-- Every folder of the tree lists a name once, and never the double dot. -/
def Listed : Node → Prop
  | file _ => True
  | folder entries =>
    ((Entries.keys entries).Nodup ∧ Path.dotDot ∉ Entries.keys entries) ∧ ListedEntries entries
def ListedEntries : List (Text × Node) → Prop
  | [] => True
  | (_, node) :: rest => Listed node ∧ ListedEntries rest
end

mutual
def decideListed : (node : Node) → Decidable node.Listed
  | file _ => isTrue trivial
  | folder entries =>
    have := decideListedEntries entries
    inferInstanceAs (Decidable (((Entries.keys entries).Nodup ∧ Path.dotDot ∉ Entries.keys entries) ∧
      ListedEntries entries))
def decideListedEntries : (entries : List (Text × Node)) → Decidable (ListedEntries entries)
  | [] => isTrue trivial
  | (_, node) :: rest =>
    have := decideListed node
    have := decideListedEntries rest
    inferInstanceAs (Decidable (Listed node ∧ ListedEntries rest))
end

instance (node : Node) : Decidable node.Listed := node.decideListed

/-- The order of a walk, told by the names that lead to two files: where the ways part, a file comes before
what is in a subfolder, and otherwise the names decide. -/
def Before : List Text → List Text → Prop
  | [name], [other] => name ≠ other ∧ name.le other = true
  | [_], _ :: _ :: _ => True
  | name :: second :: rest, other :: third :: others =>
    if name = other then Before (second :: rest) (third :: others) else name.le other = true
  | _, _ => False

private theorem names_ownFiles (entries : List (Text × Node)) :
    ((ownFiles entries).map Prod.fst).Sublist (Entries.keys entries) := by
  induction entries with
  | nil => exact List.Sublist.refl _
  | cons head rest ih =>
      obtain ⟨name, node⟩ := head
      cases node with
      | file content => exact ih.cons_cons name
      | folder inner => exact ih.cons name

private theorem names_folderFiles (above : List Text) (entries : List (Text × Node)) :
    ((folderFiles above entries).map Prod.fst).Sublist (Entries.keys entries) := by
  induction entries with
  | nil => exact List.Sublist.refl _
  | cons head rest ih =>
      obtain ⟨name, node⟩ := head
      cases node with
      | file content => exact ih.cons name
      | folder inner => exact ih.cons_cons name

theorem pairwise_names {α : Type} {items : List (Text × α)} (distinct : (items.map Prod.fst).Nodup) :
    (items.mergeSort fun a b => a.1.le b.1).Pairwise fun a b => a.1 ≠ b.1 ∧ a.1.le b.1 = true := by
  have sorted : (items.mergeSort fun a b => a.1.le b.1).Pairwise fun a b => a.1.le b.1 = true :=
    List.pairwise_mergeSort (fun a b c => Text.le_trans a.1 b.1 c.1)
      (fun a b => Text.le_total a.1 b.1) items
  have apart : (items.mergeSort fun a b => a.1.le b.1).Pairwise fun a b => a.1 ≠ b.1 := by
    have perm := (List.mergeSort_perm items fun a b => a.1.le b.1).map Prod.fst
    exact List.pairwise_map.mp (perm.nodup_iff.mpr distinct)
  exact apart.and sorted

structure Walked (above : List Text) (files : List (List Text × List UInt8)) : Prop where
  below : ∀ file ∈ files, ∃ way, way ≠ [] ∧ file.1 = above ++ way
  order : files.Pairwise fun first later =>
    ∀ way other, first.1 = above ++ way → later.1 = above ++ other → Before way other

/-- What is in order in a subfolder is in order in the folder. -/
theorem Walked.up {above : List Text} {name : Text} {files : List (List Text × List UInt8)}
    (walked : Walked (above ++ [name]) files) : Walked above files where
  below := by
    intro file member
    obtain ⟨way, _, leads⟩ := walked.below file member
    exact ⟨name :: way, List.cons_ne_nil _ _, by rw [leads, List.append_assoc, List.singleton_append]⟩
  order := by
    refine walked.order.imp_of_mem fun {first later} here there inside way other leads leads' => ?_
    obtain ⟨down, some, same⟩ := walked.below first here
    obtain ⟨down', some', same'⟩ := walked.below later there
    have ordered := inside down down' same same'
    rw [same, List.append_assoc, List.append_cancel_left_eq] at leads
    rw [same', List.append_assoc, List.append_cancel_left_eq] at leads'
    subst leads leads'
    cases down with
    | nil => exact absurd rfl some
    | cons second rest =>
        cases down' with
        | nil => exact absurd rfl some'
        | cons third others => exact (if_pos rfl).mpr ordered

private theorem walked_folder {above : List Text} {entries : List (Text × Node)}
    (distinct : (Entries.keys entries).Nodup)
    (folders : ∀ folder ∈ folderFiles above entries, Walked (above ++ [folder.1]) folder.2) :
    Walked above (files above (.folder entries)) := by
  have own := pairwise_names (distinct.sublist (names_ownFiles entries))
  have below := pairwise_names (distinct.sublist (names_folderFiles above entries))
  have inside : ∀ folder ∈ (folderFiles above entries).mergeSort (fun a b => a.1.le b.1),
      Walked (above ++ [folder.1]) folder.2 :=
    fun folder member => folders folder (List.mem_mergeSort.mp member)
  rw [files]
  constructor
  · intro file member
    rcases List.mem_append.mp member with here | there
    · obtain ⟨entry, _, rfl⟩ := List.mem_map.mp here
      exact ⟨[entry.1], List.cons_ne_nil _ _, rfl⟩
    · obtain ⟨folder, among, held⟩ := List.mem_flatMap.mp there
      exact (inside folder among).up.below file held
  · rw [List.pairwise_append]
    refine ⟨?_, ?_, ?_⟩
    · rw [List.pairwise_map]
      refine own.imp fun {first later} ordered way other leads leads' => ?_
      cases List.append_cancel_left leads
      cases List.append_cancel_left leads'
      exact ordered
    · rw [List.pairwise_flatMap]
      refine ⟨fun folder among => (inside folder among).up.order, ?_⟩
      refine below.imp_of_mem fun {first later} here there ordered file held file' held' => ?_
      intro way other leads leads'
      obtain ⟨down, some, same⟩ := (inside first here).below file held
      obtain ⟨down', some', same'⟩ := (inside later there).below file' held'
      rw [same, List.append_assoc, List.append_cancel_left_eq] at leads
      rw [same', List.append_assoc, List.append_cancel_left_eq] at leads'
      subst leads leads'
      cases down with
      | nil => exact absurd rfl some
      | cons second rest =>
          cases down' with
          | nil => exact absurd rfl some'
          | cons third others => exact (if_neg ordered.1).mpr ordered.2
    · intro file here file' there way other leads leads'
      obtain ⟨entry, _, rfl⟩ := List.mem_map.mp here
      obtain ⟨folder, among, held⟩ := List.mem_flatMap.mp there
      obtain ⟨down, some, same⟩ := (inside folder among).below file' held
      cases List.append_cancel_left leads
      rw [same, List.append_assoc, List.append_cancel_left_eq] at leads'
      subst leads'
      cases down with
      | nil => exact absurd rfl some
      | cons second rest => trivial

mutual
private theorem walked_files (above : List Text) (node : Node) (listed : node.Listed) :
    Walked above (files above node) := by
  cases node with
  | file content =>
      rw [files]
      exact ⟨List.forall_mem_nil _, List.Pairwise.nil⟩
  | folder entries =>
      obtain ⟨⟨distinct, _⟩, inner⟩ := listed
      exact walked_folder distinct (walked_folderFiles above entries inner)
private theorem walked_folderFiles (above : List Text) (entries : List (Text × Node))
    (listed : ListedEntries entries) :
    ∀ folder ∈ folderFiles above entries, Walked (above ++ [folder.1]) folder.2 := by
  cases entries with
  | nil =>
      rw [folderFiles]
      exact List.forall_mem_nil _
  | cons head rest =>
      obtain ⟨name, node⟩ := head
      obtain ⟨own, others⟩ := listed
      have later := walked_folderFiles above rest others
      cases node with
      | file content =>
          rw [folderFiles]
          exact later
      | folder inner =>
          rw [folderFiles]
          exact List.forall_mem_cons.mpr ⟨walked_files (above ++ [name]) (.folder inner) own, later⟩
end

/-! ### Ways to the files -/

private theorem mem_of_mem_ownFiles {name : Text} {bytes : List UInt8} {entries : List (Text × Node)}
    (member : (name, bytes) ∈ ownFiles entries) : (name, .file bytes) ∈ entries := by
  induction entries with
  | nil => cases member
  | cons head rest ih =>
      obtain ⟨key, node⟩ := head
      cases node with
      | file content =>
          rcases List.mem_cons.mp member with same | later
          · cases same
            exact List.mem_cons_self ..
          · exact List.mem_cons_of_mem _ (ih later)
      | folder inner => exact List.mem_cons_of_mem _ (ih member)

private theorem mem_of_mem_folderFiles {above : List Text} {folder : Text × List (List Text × List UInt8)}
    {entries : List (Text × Node)} (member : folder ∈ folderFiles above entries) :
    ∃ inner, (folder.1, Node.folder inner) ∈ entries ∧
      folder.2 = files (above ++ [folder.1]) (.folder inner) := by
  induction entries with
  | nil =>
      rw [folderFiles] at member
      cases member
  | cons head rest ih =>
      obtain ⟨key, node⟩ := head
      cases node with
      | file content =>
          rw [folderFiles] at member
          obtain ⟨inner, among, same⟩ := ih member
          exact ⟨inner, List.mem_cons_of_mem _ among, same⟩
      | folder own =>
          rw [folderFiles] at member
          rcases List.mem_cons.mp member with rfl | later
          · exact ⟨own, List.mem_cons_self .., rfl⟩
          · obtain ⟨inner, among, same⟩ := ih later
            exact ⟨inner, List.mem_cons_of_mem _ among, same⟩

theorem listed_of_mem {name : Text} {node : Node} {entries : List (Text × Node)}
    (listed : ListedEntries entries) (member : (name, node) ∈ entries) : node.Listed := by
  induction entries with
  | nil => cases member
  | cons head rest ih =>
      obtain ⟨own, others⟩ := listed
      rcases List.mem_cons.mp member with rfl | later
      · exact own
      · exact ih others later

theorem walk_folder (passed : List Node) (entries : List (Text × Node)) (name : Text) (way : List Text) :
    walk passed (.folder entries) (name :: way) =
      if name = Path.dotDot then
        match passed with
        | [] => walk [] (.folder entries) way
        | up :: more => walk more up way
      else match Entries.get? name entries with
        | some child => walk (.folder entries :: passed) child way
        | none => .error .missing := rfl

theorem walk_entry (passed : List Node) {entries : List (Text × Node)}
    (distinct : (Entries.keys entries).Nodup) (plain : Path.dotDot ∉ Entries.keys entries) {name : Text}
    {node : Node} (member : (name, node) ∈ entries) (way : List Text) :
    name ≠ Path.dotDot ∧
      walk passed (.folder entries) (name :: way) = walk (.folder entries :: passed) node way := by
  have other : name ≠ Path.dotDot := by
    rintro rfl
    exact plain (List.mem_map.mpr ⟨_, member, rfl⟩)
  refine ⟨other, ?_⟩
  rw [walk_folder, if_neg other, Entries.get?_of_mem distinct member]

/-- A way without a double dot never goes up, so what is above does not matter. -/
theorem walk_plain {way : List Text} (plain : ∀ name ∈ way, name ≠ Path.dotDot) (passed others : List Node)
    (node : Node) : walk passed node way = walk others node way := by
  induction way generalizing passed others node with
  | nil => rfl
  | cons name rest ih =>
      obtain ⟨own, later⟩ := List.forall_mem_cons.mp plain
      cases node with
      | file content => rfl
      | folder entries =>
          rw [walk_folder, walk_folder, if_neg own, if_neg own]
          cases Entries.get? name entries with
          | none => rfl
          | some child => exact ih later _ _ child

private theorem walk_append {way : List Text} (plain : ∀ name ∈ way, name ≠ Path.dotDot) (names : List Text)
    (passed : List Node) (node : Node) :
    walk passed node (names ++ way) = walk passed node names >>= fun found => walk [] found way := by
  induction names generalizing passed node with
  | nil => exact walk_plain plain passed [] node
  | cons name rest ih =>
      cases node with
      | file content => rfl
      | folder entries =>
          rw [List.cons_append, walk_folder, walk_folder]
          by_cases up : name = Path.dotDot
          · rw [if_pos up, if_pos up]
            cases passed with
            | nil => exact ih [] _
            | cons outer more => exact ih more outer
          · rw [if_neg up, if_neg up]
            cases Entries.get? name entries with
            | none => rfl
            | some child => exact ih _ child

private theorem leads_of_mem_files (above : List Text) (entries : List (Text × Node))
    (listed : (Node.folder entries).Listed) {file : List Text × List UInt8}
    (member : file ∈ files above (.folder entries)) :
    ∃ way, (∀ name ∈ way, name ≠ Path.dotDot) ∧ file.1 = above ++ way ∧
      walk [] (.folder entries) way = .ok (.file file.2) := by
  obtain ⟨⟨distinct, plain⟩, inner⟩ := listed
  rw [files] at member
  rcases List.mem_append.mp member with here | there
  · obtain ⟨⟨name, bytes⟩, own, rfl⟩ := List.mem_map.mp here
    have among := mem_of_mem_ownFiles (List.mem_mergeSort.mp own)
    obtain ⟨other, leads⟩ := walk_entry [] distinct plain among []
    exact ⟨[name], List.forall_mem_singleton.mpr other, rfl, leads⟩
  · obtain ⟨⟨name, below⟩, sub, held⟩ := List.mem_flatMap.mp there
    obtain ⟨entries', among, same⟩ := mem_of_mem_folderFiles (List.mem_mergeSort.mp sub)
    dsimp only at among same held
    subst same
    have smaller : sizeOf entries' < sizeOf entries := by
      have bound := List.sizeOf_lt_of_mem among
      simp only [Prod.mk.sizeOf_spec, folder.sizeOf_spec] at bound
      omega
    obtain ⟨way, down, same, leads⟩ :=
      leads_of_mem_files (above ++ [name]) entries' (listed_of_mem inner among) held
    obtain ⟨other, first⟩ := walk_entry [] distinct plain among way
    refine ⟨name :: way, List.forall_mem_cons.mpr ⟨other, down⟩, ?_, ?_⟩
    · rw [same, List.append_assoc, List.singleton_append]
    · rw [first, walk_plain down _ [], leads]
termination_by sizeOf entries

private theorem mem_files {above : List Text} {entries : List (Text × Node)} (listed : (Node.folder entries).Listed)
    {file : List Text × List UInt8} : file ∈ files above (.folder entries) ↔
      ∃ way, (∀ name ∈ way, name ≠ Path.dotDot) ∧ file.1 = above ++ way ∧
        walk [] (.folder entries) way = .ok (.file file.2) := by
  constructor
  · exact leads_of_mem_files above entries listed
  · obtain ⟨names, bytes⟩ := file
    rintro ⟨way, plain, rfl, leads⟩
    exact mem_files_of_walk plain above leads

theorem walk_keeps (kept : Node → Prop) (inside : ∀ entries, kept (.folder entries) → ∀ entry ∈ entries, kept entry.2)
    {passed : List Node} {node found : Node} {names : List Text} (above : ∀ outer ∈ passed, kept outer)
    (start : kept node) (leads : walk passed node names = .ok found) : kept found := by
  induction names generalizing passed node with
  | nil =>
      cases leads
      exact start
  | cons name rest ih =>
      cases node with
      | file content => cases leads
      | folder entries =>
          rw [walk_folder] at leads
          by_cases up : name = Path.dotDot
          · rw [if_pos up] at leads
            cases passed with
            | nil => exact ih above start leads
            | cons outer more =>
                obtain ⟨own, others⟩ := List.forall_mem_cons.mp above
                exact ih others own leads
          · rw [if_neg up] at leads
            cases held : Entries.get? name entries with
            | none =>
                rw [held] at leads
                cases leads
            | some child =>
                rw [held] at leads
                exact ih (List.forall_mem_cons.mpr ⟨start, above⟩)
                  (inside entries start _ (Entries.mem_of_get? held)) leads

theorem listed_walk {passed : List Node} {node found : Node} {names : List Text}
    (above : ∀ outer ∈ passed, outer.Listed) (listed : node.Listed)
    (leads : walk passed node names = .ok found) : found.Listed :=
  walk_keeps Listed (fun _ listed _ member => listed_of_mem listed.2 member) above listed leads

end Node

namespace Path

def down (p : Path) (way : List Text) : Path := { p with names := p.names ++ way }

end Path

namespace Tree

structure Walk (tree : Tree) (folder : Path) (keep : Path → Bool) (files : List Path) : Prop where
  mem : ∀ file, file ∈ files ↔ keep file = true ∧ ∃ way bytes, (∀ name ∈ way, name ≠ Path.dotDot) ∧
    file = folder.down way ∧ tree.node? file = .ok (.file bytes)
  order : files.Pairwise fun first later =>
    ∃ way other, first = folder.down way ∧ later = folder.down other ∧ Node.Before way other

theorem node?_down (tree : Tree) (folder : Path) {way : List Text}
    (plain : ∀ name ∈ way, name ≠ Path.dotDot) :
    tree.node? (folder.down way) = tree.node? folder >>= fun found => Node.walk [] found way := by
  have names : (folder.down way).namesFrom tree.directory = folder.namesFrom tree.directory ++ way := by
    unfold Path.namesFrom Path.down
    cases folder.anchor <;> simp
  unfold node?
  rw [names]
  exact Node.walk_append plain _ [] tree.root

theorem node?_of_named? {tree : Tree} {path : Path} {node : Node} (found : tree.named? path = some node) :
    tree.node? path = .ok node := by
  unfold named? at found
  split at found
  · cases found
  · cases ran : tree.node? path with
    | error fault =>
        rw [ran] at found
        cases found
    | ok other =>
        rw [ran] at found
        exact congrArg Except.ok (Option.some.inj found)

theorem walk_filesBelow {tree : Tree} (listed : tree.root.Listed) {folder : Path}
    (present : tree.isFolder folder = true) (keep : Path → Bool) :
    tree.Walk folder keep ((tree.filesBelow folder).filter keep) := by
  unfold isFolder at present
  split at present
  · rename_i entries found
    have leads := node?_of_named? found
    have below : (Node.folder entries).Listed := Node.listed_walk (List.forall_mem_nil _) listed leads
    unfold filesBelow
    rw [found]
    dsimp only
    constructor
    · intro file
      rw [List.mem_filter, and_comm, List.mem_map]
      apply and_congr_right
      intro kept
      constructor
      · rintro ⟨held, member, rfl⟩
        obtain ⟨way, plain, same, ends⟩ := (Node.mem_files below).mp member
        rw [List.nil_append] at same
        refine ⟨way, held.2, plain, by rw [same]; rfl, ?_⟩
        rw [same]
        exact (tree.node?_down folder plain).trans (by rw [leads]; exact ends)
      · rintro ⟨way, bytes, plain, rfl, ends⟩
        rw [tree.node?_down folder plain, leads] at ends
        exact ⟨(way, bytes), (Node.mem_files below).mpr ⟨way, plain, rfl, ends⟩, rfl⟩
    · apply List.Pairwise.filter
      rw [List.pairwise_map]
      refine (Node.walked_files [] _ below).order.imp fun {first later} ordered => ?_
      exact ⟨first.1, later.1, rfl, rfl, ordered _ _ rfl rfl⟩
  · cases present

end Tree

end EventSchema
