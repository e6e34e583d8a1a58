import EventSchema.Include

/-!
Scanning a folder for the items of one kind.

Every `.json` file at or below the folder of the kind is read in walking order, its directives are
expanded, and it is stamped with the file it comes from. Two files that define the same name collide;
the policy says whether that stops the run or only warns, the file found later winning.
-/

set_option autoImplicit false

namespace EventSchema

/-- What becomes of two files of one scan that define the same name. -/
inductive DuplicatePolicy where
  | error
  | warn
deriving DecidableEq, Inhabited, Repr

structure Scan where
  tree : Tree
  places : Places
  policy : DuplicatePolicy
  context : Text

namespace Scan

/-- The files of a kind below a folder, in walking order. -/
def files (scan : Scan) (base : Path) (kind : Text) : Except Fault (List Path) := do
  let folder := base.child kind
  Tree.checkName folder
  return (scan.tree.filesBelow folder).filter fun file => file.name.endsWith ".json"

/-- The copy of the content of a file, expanded and stamped in place. -/
def copied (scan : Scan) (kind : Text) (file : Path) : Act Aliased := do
  let fragment ← Fragment.borrow scan.tree file
  let context := scan.context ++ " " ++ kind ++ " file " ++ file.name.enclosed
  let expanded ← Include.expandIn scan.tree scan.places context (some file) fragment.copy
  (expanded.put "_origin" (.own (.text file.text))).write

def document (scan : Scan) (kind : Text) (file : Path) : Act Fields := do
  return (← scan.copied kind file).fields

def add (scan : Scan) (context : Text) (file : Path) (items : Entries Fields) (name : Text)
    (document : Fields) : Act (Entries Fields) := do
  match Entries.get? name items with
  | none => pure ()
  | some existing =>
    let caption (fields : Fields) : Value := (Entries.get? "caption" fields).getD (.text ∅)
    let origin := Entries.orNull "_origin" existing
    let fault := DuplicateFault.itemName context (caption document) (caption existing) origin file
    match scan.policy with
    | .error => throw (.duplicate fault)
    | .warn => warn (.laterDefinitionWins fault)
  return Entries.put name document items

def itemName (kind : Text) (file : Path) (document : Fields) : Except Fault Text :=
  match Entries.get? "name" document with
  | none => .error (.definition (.noName kind file))
  | some name =>
    if !name.truthy then .error (.definition (.noName kind file))
    else match name with
      | .text name => .ok name
      | given => .error (.definition (.nameNotText kind given file))

/-- The items of a kind below a folder, by name. -/
def items (scan : Scan) (base : Path) (kind : Text) : Act (Entries Fields) := do
  (← scan.files base kind).foldlM (fun items file => do
    let document ← scan.document kind file
    let name ← itemName kind file document
    scan.add (scan.context ++ " " ++ kind ++ " " ++ name.enclosed) file items name document) []

/-- What a file of an extension does: define an item, or patch the item of that name. -/
inductive Role where
  | defines (name : Text)
  | patches (name : Text)
deriving DecidableEq, Repr

/-- A patch names the item it extends and no other name; everything else is a definition. -/
def role (kind : Text) (file : Path) (document : Fields) : Except Fault Role := do
  let name := Entries.get? "name" document
  let parent := Entries.get? "extends" document
  if !Value.given name && !Value.given parent then
    throw (.definition (.noNameOrParent kind file))
  let named ← match name with
    | some (.text t) => pure (if t.isEmpty then none else some t)
    | some given =>
      if given.truthy then throw (.definition (.extensionNameNotText kind given file))
      else pure none
    | none => pure none
  let extended ← match parent with
    | some (.text t) => pure (if t.isEmpty then none else some t)
    | some given =>
      if given.truthy then throw (.definition (.extensionParentNotText kind given file))
      else pure none
    | none => pure none
  match named, extended with
  | some name, some parent => return if name = parent then .patches parent else .defines name
  | some name, none => return .defines name
  | none, some parent => return .patches parent
  | none, none => throw (.definition (.noNameOrParent kind file))

/-- The new items of an extension and its patches, each by name. -/
structure Patchable where
  items : Entries Fields
  patches : Entries Fields

/-- The items and patches of a kind below a folder of an extension. -/
def patchable (scan : Scan) (base : Path) (kind : Text) : Act Patchable := do
  (← scan.files base kind).foldlM (fun found file => do
    let document ← scan.document kind file
    let place := scan.context ++ " " ++ kind
    match ← role kind file document with
    | .patches name =>
      let patches ← scan.add (place ++ " patch " ++ name.enclosed) file found.patches name document
      return { found with patches }
    | .defines name =>
      let items ← scan.add (place ++ " " ++ name.enclosed) file found.items name document
      return { found with items }) { items := [], patches := [] }

end Scan

end EventSchema
