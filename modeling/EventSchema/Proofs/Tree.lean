import EventSchema.Proofs.Entries
import EventSchema.Tree
import Mathlib.Data.List.Basic

/-!
The files that paths lead to.

A resolved path has no double dot in it, so resolving it again changes nothing, and the file that it
leads to is one of the files that walking the tree lists.
-/

set_option autoImplicit false

namespace EventSchema

namespace Path

private theorem normalize_plain {done names : List Text} (plain : ∀ name ∈ done, name ≠ dotDot) :
    ∀ name ∈ normalize done names, name ≠ dotDot := by
  induction names generalizing done with
  | nil =>
      rw [normalize]
      exact fun name member => plain name (List.mem_reverse.mp member)
  | cons head rest ih =>
      rw [normalize]
      split
      · exact ih fun name member => plain name (List.mem_of_mem_drop member)
      · rename_i other
        exact ih (List.forall_mem_cons.mpr ⟨other, plain⟩)

private theorem normalize_of_plain {done names : List Text} (plain : ∀ name ∈ names, name ≠ dotDot) :
    normalize done names = done.reverse ++ names := by
  induction names generalizing done with
  | nil => rw [normalize, List.append_nil]
  | cons head rest ih =>
      obtain ⟨own, others⟩ := List.forall_mem_cons.mp plain
      rw [normalize, if_neg own, ih others, List.reverse_cons, List.append_assoc, List.singleton_append]

end Path

namespace Tree

theorem resolve_plain (tree : Tree) (p : Path) : ∀ name ∈ (tree.resolve p).names, name ≠ Path.dotDot :=
  Path.normalize_plain fun name impossible => by cases impossible

theorem resolve_resolve (tree : Tree) (p : Path) : tree.resolve (tree.resolve p) = tree.resolve p := by
  have kept : Path.normalize [] (tree.resolve p).names = (tree.resolve p).names :=
    Path.normalize_of_plain (tree.resolve_plain p)
  exact congrArg (Path.mk Anchor.top) kept

end Tree

namespace Node

private theorem mem_ownFiles {name : Text} {bytes : List UInt8} {entries : List (Text × Node)}
    (found : Entries.get? name entries = some (.file bytes)) : (name, bytes) ∈ ownFiles entries := by
  induction entries with
  | nil => cases found
  | cons head rest ih =>
      obtain ⟨key, node⟩ := head
      rw [Entries.get?_cons] at found
      by_cases same : key = name
      · rw [if_pos same, Option.some.injEq] at found
        subst same found
        rw [ownFiles]
        exact List.mem_cons_self ..
      · rw [if_neg same] at found
        cases node with
        | file other =>
            rw [ownFiles]
            exact List.mem_cons_of_mem _ (ih found)
        | folder inner =>
            rw [ownFiles]
            exact ih found

private theorem mem_folderFiles {name : Text} {inner entries : List (Text × Node)} (above : List Text)
    (found : Entries.get? name entries = some (.folder inner)) :
    (name, files (above ++ [name]) (.folder inner)) ∈ folderFiles above entries := by
  induction entries with
  | nil => cases found
  | cons head rest ih =>
      obtain ⟨key, node⟩ := head
      rw [Entries.get?_cons] at found
      by_cases same : key = name
      · rw [if_pos same, Option.some.injEq] at found
        subst same found
        rw [folderFiles]
        exact List.mem_cons_self ..
      · rw [if_neg same] at found
        cases node with
        | file other =>
            rw [folderFiles]
            exact ih found
        | folder other =>
            rw [folderFiles]
            exact List.mem_cons_of_mem _ (ih found)

/-- The file at the end of a walk that never goes up is one of the files of the folder. -/
theorem mem_files_of_walk {names : List Text} {bytes : List UInt8}
    (plain : ∀ name ∈ names, name ≠ Path.dotDot) {entries : List (Text × Node)} {passed : List Node}
    (above : List Text) (found : walk passed (.folder entries) names = .ok (.file bytes)) :
    (above ++ names, bytes) ∈ files above (.folder entries) := by
  induction names generalizing entries passed above with
  | nil => cases found
  | cons name rest ih =>
      obtain ⟨own, others⟩ := List.forall_mem_cons.mp plain
      unfold walk at found
      dsimp only at found
      rw [if_neg own] at found
      rw [files]
      cases here : Entries.get? name entries with
      | none =>
          rw [here] at found
          cases found
      | some child =>
          rw [here] at found
          dsimp only at found
          cases child with
          | file content =>
              cases rest with
              | nil =>
                  cases found
                  exact List.mem_append_left _ (List.mem_map.mpr
                    ⟨_, List.mem_mergeSort.mpr (mem_ownFiles here), rfl⟩)
              | cons => cases found
          | folder inner =>
              refine List.mem_append_right _ (List.mem_flatMap.mpr ⟨_,
                List.mem_mergeSort.mpr (mem_folderFiles above here), ?_⟩)
              have deeper := ih others (above ++ [name]) found
              rw [List.append_assoc, List.singleton_append] at deeper
              exact deeper

end Node

end EventSchema
