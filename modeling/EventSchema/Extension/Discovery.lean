import EventSchema.Extension.Manifest

/-!
Discovery of extensions.

A given path that does not exist as it stands is taken below the home folder. A path of a manifest
means its folder. A folder with a manifest is one extension and is not searched further; any other
folder is searched, subfolders in the order of their names. Each folder is found once.
-/

set_option autoImplicit false

namespace EventSchema.Extension

/-- Folders of extensions with their manifests, in order of discovery. -/
abbrev Found := List (Path × Path)

def Found.add (found : Found) (entry : Path × Path) : Found :=
  if found.any fun other => other.1 = entry.1 then found else found ++ [entry]

def inOrder (actions : List (Text × Act Found)) : Act Found := do
  let sorted := actions.mergeSort fun a b => a.1.le b.1
  sorted.foldlM (fun found action => do return found ++ (← action.2)) []

mutual
def search (tree : Tree) (path : Path) : Node → Act Found
  | .file _ => pure []
  | .folder entries => do
    match ← findManifest tree path with
    | some manifest => return [(path, manifest)]
    | none => inOrder (searchEntries tree path entries)
def searchEntries (tree : Tree) (path : Path) : List (Text × Node) → List (Text × Act Found)
  | [] => []
  | (name, .folder entries) :: rest =>
    (name, search tree { path with names := path.names ++ [name] } (.folder entries))
      :: searchEntries tree path rest
  | (_, .file _) :: rest => searchEntries tree path rest
end

/-- The extension folders that one given path leads to. -/
def locateAt (tree : Tree) (home path : Path) : Act Found := do
  let candidate ← tree.resolveNamed (if tree.present path then path else home.join path)
  let direct ←
    if tree.isFile candidate && (candidate.name = manifestName || candidate.name = versionName) then
      findManifest tree candidate.parent
    else pure none
  match direct, tree.named? candidate with
  | some manifest, _ => return [(candidate.parent, manifest)]
  | none, some (.folder entries) => search tree candidate (.folder entries)
  | none, _ =>
    note (.extensionPathIgnored candidate)
    return []

def locate (tree : Tree) (home : Path) (paths : List Path) (isPlatform : Bool)
    (schemaVersion : Value) : Act (List Extension) := do
  let found ← paths.foldlM (fun found path => do
    return (← locateAt tree home path).foldl Found.add found) []
  found.mapM fun (folder, manifest) => do
    let extension ← (read tree manifest isPlatform schemaVersion : Except Fault Extension)
    note (.extensionFound isPlatform extension.name folder)
    return extension

end EventSchema.Extension
