import EventSchema.Entries
import EventSchema.Path

/-!
The files that a run sees: a tree of folders and files, and a working directory in it.

Looking a path up goes name by name from the top, as a file system does, so a double dot leads to the
folder above and needs the folder before it to exist. A listing is in the order of names.
-/

set_option autoImplicit false

namespace EventSchema

inductive Node where
  | file (content : List UInt8)
  | folder (entries : List (Text × Node))
deriving Inhabited

/-- Why nothing is found under a path. -/
inductive LookupFault where
  | missing
  | notFolder
deriving DecidableEq, Repr

namespace Node

/-- The node that the names lead to. `above` holds the folders over the node, nearest first. -/
def walk (above : List Node) (node : Node) : List Text → Except LookupFault Node
  | [] => .ok node
  | name :: rest => match node with
    | file _ => .error .notFolder
    | folder entries =>
      if name = Path.dotDot then
        match above with
        | [] => walk [] node rest
        | up :: more => walk more up rest
      else match Entries.get? name entries with
        | some child => walk (node :: above) child rest
        | none => .error .missing

def insert (new : Node) : (names : List Text) → Node → Node
  | [], _ => new
  | name :: rest, folder entries =>
    folder (Entries.put name (insert new rest ((Entries.get? name entries).getD (folder [])))
      entries)
  | name :: rest, file _ => folder [(name, insert new rest (folder []))]

mutual
/-- The files of the tree with the names that lead to them, where `above` leads to the tree itself:
the files of a folder in the order of their names, then those of its subfolders, one subfolder after
another in the order of their names. -/
def files (above : List Text) : Node → List (List Text × List UInt8)
  | file _ => []
  | folder entries =>
    let order (a b : Text × List (List Text × List UInt8)) : Bool := a.1.le b.1
    let own := (ownFiles entries).mergeSort fun a b => a.1.le b.1
    let below := (folderFiles above entries).mergeSort order
    own.map (fun entry => (above ++ [entry.1], entry.2)) ++ below.flatMap Prod.snd
def folderFiles (above : List Text) :
    List (Text × Node) → List (Text × List (List Text × List UInt8))
  | [] => []
  | (name, folder entries) :: rest =>
    (name, files (above ++ [name]) (folder entries)) :: folderFiles above rest
  | (_, file _) :: rest => folderFiles above rest
def ownFiles : List (Text × Node) → List (Text × List UInt8)
  | [] => []
  | (name, file content) :: rest => (name, content) :: ownFiles rest
  | (_, folder _) :: rest => ownFiles rest
end

end Node

/-- A tree of files with the names of the working directory. -/
structure Tree where
  root : Node
  directory : List Text
deriving Inhabited

namespace Tree

/-- The path made absolute and free of double dots. -/
def resolve (tree : Tree) (p : Path) : Path := p.resolveFrom tree.directory

def node? (tree : Tree) (p : Path) : Except LookupFault Node :=
  Node.walk [] tree.root (p.namesFrom tree.directory)

def named? (tree : Tree) (p : Path) : Option Node :=
  if p.nameFault?.isSome then none else (tree.node? p).toOption

def present (tree : Tree) (p : Path) : Bool := (tree.named? p).isSome

def isFile (tree : Tree) (p : Path) : Bool :=
  match tree.named? p with
  | some (.file _) => true
  | _ => false

def isFolder (tree : Tree) (p : Path) : Bool :=
  match tree.named? p with
  | some (.folder _) => true
  | _ => false

/-- The files below a folder in walking order, as paths that start with the folder's; none if the
path is not a folder's. -/
def filesBelow (tree : Tree) (p : Path) : List Path :=
  match tree.named? p with
  | some (.folder entries) =>
    ((Node.folder entries).files []).map fun file => { p with names := p.names ++ file.1 }
  | _ => []

/-- The entries of a folder in the order of their names. -/
def listing (tree : Tree) (p : Path) : List Path :=
  match tree.named? p with
  | some (.folder entries) =>
    (Text.sort (Entries.keys entries)).map fun name => { p with names := p.names ++ [name] }
  | _ => []

end Tree

end EventSchema
