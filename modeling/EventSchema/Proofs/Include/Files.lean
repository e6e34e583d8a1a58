import EventSchema.Proofs.Include.Content
import EventSchema.Proofs.Tree
import EventSchema.Proofs.Value.Written

/-!
The files that an item includes.

An item includes the files that its directives list, and through them those that they include. A file
that can be read under a name is the file of a path without double dots, and one of the files that an
expansion may enter.
-/

set_option autoImplicit false

namespace EventSchema

open Value

private theorem Tree.node?_of_content {tree : Tree} {p : Path} {bytes : List UInt8}
    (present : tree.content p = .ok bytes) : tree.node? p = .ok (.file bytes) := by
  obtain ⟨_, _, present⟩ := bind_eq_ok.mp present
  split at present
  · rename_i found
    exact found.trans (congrArg _ (congrArg Node.file (Except.ok.inj present)))
  · cases present
  · cases present
  · cases present

namespace Include

variable {tree : Tree} {places : Places}

/-! ### Directives -/

def names? : Value → Option (List Text)
  | .text name => some [name]
  | .array items => items.mapM Value.text?
  | _ => none

theorem fileNames_of_names? {given : Value} {names : List Text} (listed : names? given = some names)
    (context : Text) : fileNames context given = .ok names := by
  cases given with
  | text name => exact congrArg Except.ok (Option.some.inj listed)
  | array items =>
      unfold names? at listed
      unfold fileNames
      dsimp only at listed ⊢
      rw [listed]
  | null | bool _ | int _ | float _ | object _ _ => cases listed

theorem not_object_of_names? {given : Value} {names : List Text} (listed : names? given = some names) :
    given.isObject = false := by
  cases given with
  | object mark fields => cases listed
  | null | bool _ | int _ | float _ | text _ | array _ => rfl

def listing (given : Option Value) : List Text := (given.bind names?).getD []

def directiveAt (key : Text) (attributes : Fields) : Option Value :=
  match Entries.get? key attributes with
  | some (.object _ fields) => Entries.get? directive fields
  | _ => none

theorem directiveAt_tag (key : Text) (name : Value) (attributes : Fields) :
    directiveAt key (tag name attributes) = directiveAt key attributes := by
  unfold directiveAt
  rw [tag, Entries.get?_mapValues]
  cases Entries.get? key attributes with
  | none => rfl
  | some value =>
      cases value with
      | object mark fields =>
          rw [Option.map_some]
          dsimp only
          rw [Entries.get?_putNew, if_neg fun both => absurd both.1 (by decide)]
      | null | bool _ | int _ | float _ | text _ | array _ => rfl

def directives (item : Fields) : List Value :=
  (Entries.get? directive (Entries.attributes item)).toList ++
    (Entries.attributes item).filterMap fun entry => match entry.2 with
      | .object _ fields => Entries.get? directive fields
      | _ => none

def namesIncluded (item : Fields) : List Text :=
  (directives item).flatMap fun given => listing (some given)

theorem mem_directives_among {item : Fields} {given : Value}
    (found : Entries.get? directive (Entries.attributes item) = some given) : given ∈ directives item := by
  refine List.mem_append_left _ ?_
  rw [found]
  exact List.mem_singleton_self given

theorem mem_directives_inside {item : Fields} {key : Text} {given : Value}
    (found : directiveAt key (Entries.attributes item) = some given) : given ∈ directives item := by
  unfold directiveAt at found
  split at found
  · rename_i mark fields known
    exact List.mem_append_right _ (List.mem_filterMap.mpr ⟨_, Entries.mem_of_get? known, found⟩)
  · cases found

theorem mem_namesIncluded {item : Fields} {found : Option Value} {name : Text}
    (known : ∀ given, found = some given → given ∈ directives item) (listed : name ∈ listing found) :
    name ∈ namesIncluded item := by
  cases found with
  | none => cases listed
  | some given => exact List.mem_flatMap.mpr ⟨given, known given rfl, listed⟩

def WellDirected (item : Fields) : Prop := ∀ given ∈ directives item, (names? given).isSome = true

instance : DecidablePred WellDirected := fun item =>
  inferInstanceAs (Decidable (∀ given ∈ directives item, (names? given).isSome = true))

theorem WellDirected.names {item : Fields} (directed : WellDirected item) {given : Value}
    (known : given ∈ directives item) : ∃ names, names? given = some names :=
  Option.isSome_iff_exists.mp (directed given known)

inductive Reached (tree : Tree) (places : Places) : Fields → Path → Fields → Prop
  | direct {item fragment : Fields} {name : Text} {path : Path} (listed : name ∈ namesIncluded item)
      (found : (find tree places name).content = .ok (path, fragment)) :
      Reached tree places item path fragment
  | through {item fragment last : Fields} {name : Text} {path other : Path}
      (listed : name ∈ namesIncluded item)
      (found : (find tree places name).content = .ok (path, fragment))
      (further : Reached tree places fragment other last) : Reached tree places item other last

/-! ### Reading a file by its name -/

theorem find_ok {entries : List (Text × Node)} (rooted : tree.root = .folder entries) {name : Text}
    {path : Path} {fragment : Fields} (found : (find tree places name).content = .ok (path, fragment)) :
    path ∈ candidates tree ∧ Fragment.ofFile tree path = .ok fragment := by
  rw [content_find] at found
  obtain ⟨named, _, found⟩ := bind_eq_ok.mp found
  obtain ⟨resolved, resolves, found⟩ := bind_eq_ok.mp found
  obtain ⟨loaded, loads, found⟩ := bind_eq_ok.mp found
  cases pure_eq_ok.mp found
  obtain ⟨_, _, same⟩ := bind_eq_ok.mp resolves
  rw [← pure_eq_ok.mp same] at loads ⊢
  rw [Fragment.content_load] at loads
  obtain ⟨key, again, loads⟩ := bind_eq_ok.mp loads
  obtain ⟨_, _, kept⟩ := bind_eq_ok.mp again
  rw [← pure_eq_ok.mp kept, Tree.resolve_resolve] at loads
  refine ⟨?_, loads⟩
  obtain ⟨document, read, _⟩ := bind_eq_ok.mp loads
  obtain ⟨bytes, present, _⟩ := bind_eq_ok.mp read
  have leads : Node.walk [] tree.root (tree.resolve named).names = .ok (.file bytes) :=
    Tree.node?_of_content present
  rw [rooted] at leads
  have listed := Node.mem_files_of_walk (tree.resolve_plain named) [] leads
  rw [← rooted, List.nil_append] at listed
  exact List.mem_map.mpr ⟨_, listed, rfl⟩

theorem content_read_of_find {entries : List (Text × Node)} (rooted : tree.root = .folder entries)
    {name : Text} {path : Path} {fragment : Fields}
    (found : (find tree places name).content = .ok (path, fragment)) {stack : List Path}
    (fresh : path ∉ stack) (context : Text) :
    (read tree places stack name context).content =
      some <$> (expandWith (read tree places (stack ++ [path])) ("include " ++ name.enclosed)
        fragment).content := by
  rw [content_read, found]
  dsimp only
  rw [if_neg fresh, if_pos (find_ok rooted found).1]

end Include

end EventSchema
