import EventSchema.Extension.Basic
import EventSchema.Fragment.Loader

/-!
Manifests. A folder is an extension if it holds a `version.json` that declares a name and a uid, or
else an `extension.json`.
-/

set_option autoImplicit false

namespace EventSchema.Extension

def manifestName : Text := "extension.json"

def versionName : Text := "version.json"

/-- The file that marks a folder as an extension, if any. A version file that is no document is
reported and passed over. -/
def findManifest (tree : Tree) (folder : Path) : Act (Option Path) := do
  let version := folder.child versionName
  let manifest := folder.child manifestName
  let fallback := if tree.isFile manifest then some manifest else none
  if tree.isFile version then
    match Fragment.readObject tree version with
    | .ok info =>
      return if Entries.has "name" info && Entries.has "uid" info then some version else fallback
    | .error (.document fault) =>
      note (.versionFileIgnored version (.document fault))
      return fallback
    | .error fault => throw fault
  else return fallback

def read (tree : Tree) (manifest : Path) (isPlatform : Bool) (schemaVersion : Value) :
    Except Fault Extension := do
  let info ← Fragment.readObject tree manifest
  let field (key : Text) : Value := Entries.orNull key info
  let uid ← match field "uid" with
    | .int n => pure n
    | given => throw (.definition (.manifestUid given manifest))
  let name ← match field "name" with
    | .text t =>
      if t.isEmpty then throw (.definition (.manifestName (.text t) manifest)) else pure t
    | given => throw (.definition (.manifestName given manifest))
  if name.hasSlash then throw (.definition (.manifestNameScoped manifest))
  let version := if (field "version").isNull then schemaVersion else field "version"
  return {
    name, uid, version, isPlatform
    path := manifest.parent
    caption := field "caption"
    description := field "description" }

end EventSchema.Extension
