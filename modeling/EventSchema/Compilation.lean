import EventSchema.Contribution.Dictionary
import EventSchema.Contribution.Patch
import EventSchema.Extension.Discovery
import EventSchema.Graph.Build
import EventSchema.Json.Writer

/-!
The compilation of a schema folder and its extensions into a graph.

The base schema and every extension are read before any fault of theirs stops the compilation, and
then the first fault does. What the extensions contribute is prepared, merged in the order of the
extensions, and patched in. The fragments that were read are dropped in the end, whatever happens.
-/

set_option autoImplicit false

namespace EventSchema

structure Settings where
  schema : Path
  ignorePlatform : Bool := false
  extensionPaths : List Path := []
  duplicates : DuplicatePolicy := .error

structure Compilation where
  tree : Tree
  settings : Settings
  done : Bool := false

namespace Settings

def platformFolder (s : Settings) : Path := s.schema.child "extensions"

def announce (s : Settings) : Act Unit := do
  note (.schemaPath s.schema)
  note (.platformExtensions s.ignorePlatform s.platformFolder)
  if !s.extensionPaths.isEmpty then note (.extensionPaths s.extensionPaths)
  if s.duplicates = .warn then note .duplicatesAreWarnings

end Settings

namespace Compilation

/-- The version of a schema that names none. -/
def unversioned : Value := .text "0.0.0"

def version (c : Compilation) : Act Value := do
  let file := c.settings.schema.child "version.json"
  match ← (Fragment.borrow c.tree file).attempt with
  | .ok document =>
    match document.get? "version" with
    | some version => return version.value
    | none =>
      warn (.versionKeyMissing file)
      return unversioned
  | .error (.file (.missing _)) =>
    warn (.versionFileMissing file unversioned)
    return unversioned
  | .error fault => throw fault

def requiredDocument (c : Compilation) (name : Text) : Act Fields := do
  let file := c.settings.schema.child name
  match ← (Fragment.load c.tree file).attempt with
  | .ok document => return document
  | .error (.file (.missing _)) => throw (.integrity (.requiredFile file))
  | .error fault => throw fault

def addLocated (known located : List Extension) : List Extension :=
  located.foldl (fun known e =>
    if known.any fun other => other.path = e.path then known else known ++ [e]) known

/-- The extensions of the schema itself and then those of the given paths. -/
def locateExtensions (c : Compilation) (version : Value) : Act (List Extension) := do
  let s := c.settings
  let platform ←
    if !s.ignorePlatform && c.tree.isFolder s.platformFolder then
      Extension.locate c.tree s.schema [s.platformFolder] true version
    else pure []
  let given ← Extension.locate c.tree s.schema s.extensionPaths false version
  let all := addLocated platform given
  (Extension.validate all : Except Fault Unit)
  return all

/-- The raw items of a schema while contributions are merged into them. -/
structure Sources where
  categories : Fields
  dictionary : Fields
  classes : Entries Fields
  objects : Entries Fields
  profiles : Entries Fields
  classPatches : Patches := []
  objectPatches : Patches := []

def addScoped {α : Type} (e : Extension) (base new : Entries α) : Entries α :=
  new.foldl (fun base entry => Entries.put (Scope.within e.name entry.1) entry.2 base) base

def addCategories (e : Extension) (base new : Fields) : Except Fault Fields := do
  let added ← (← (Entries.orEmpty "attributes" new).asFields).foldlM
    (fun (categories : Value) entry => categories.withField (Scope.within e.name entry.1) entry.2)
    (Entries.orEmpty "attributes" base)
  return Entries.put "attributes" added base

def addPatches (patches : Patches) (new : Entries Fields) : Patches :=
  new.foldl (fun patches entry => Patches.add entry.1 entry.2 patches) patches

def Sources.add (s : Sources) (c : Contribution) : Act Sources := do
  let categories ← (addCategories c.extension s.categories c.categories : Except Fault Fields)
  let dictionary ← c.extendDictionary s.dictionary
  return {
    categories, dictionary
    classes := addScoped c.extension s.classes c.classes
    objects := addScoped c.extension s.objects c.objects
    profiles := addScoped c.extension s.profiles c.profiles
    classPatches := addPatches s.classPatches c.classPatches
    objectPatches := addPatches s.objectPatches c.objectPatches }

def Sources.definitions (s : Sources) (version : Value) (extensions : List Extension) :
    Act Definitions := do
  let classes ← Patch.applyAll .eventClass s.classes s.classPatches
  let objects ← Patch.applyAll .object s.objects s.objectPatches
  return {
    version, extensions
    categories := .record s.categories
    dictionary := .record s.dictionary
    classes := .record (Entries.mapValues Value.record classes)
    objects := .record (Entries.mapValues Value.record objects)
    profiles := .record (Entries.mapValues Value.record s.profiles) }

/-- Everything that the base schema and the extensions define, not yet merged. -/
def readAll (c : Compilation) (categories dictionary : Fields) (extensions : List Extension) :
    Act (Sources × List Contribution) := do
  let s := c.settings
  let scan : Scan := {
    tree := c.tree
    policy := s.duplicates
    places := .schema s.schema
    context := "base schema" }
  let classes ← (scan.items s.schema "events").attempt
  let objects ← (scan.items s.schema "objects").attempt
  let profiles ← (scan.items s.schema "profiles").attempt
  let contributions ← extensions.mapM fun e =>
    (Contribution.read c.tree s.schema s.duplicates e).attempt
  let classes ← classes
  let objects ← objects
  let profiles ← profiles
  let contributions ← (contributions.mapM id : Except Fault (List Contribution))
  return ({ categories, dictionary, classes, objects, profiles }, contributions)

def prepare (c : Contribution) : Act Contribution := do
  let stamped ← (c.stamped : Except Fault Contribution)
  stamped.withScopedProfiles

def build (c : Compilation) : Act Graph := do
  let version ← c.version
  let categories ← c.requiredDocument "categories.json"
  let dictionary ← c.requiredDocument "dictionary.json"
  let extensions ← c.locateExtensions version
  let (base, contributions) ← c.readAll categories dictionary extensions
  let contributions ← contributions.mapM prepare
  let sources ← contributions.foldlM Sources.add base
  Graph.ofDefinitions (← sources.definitions version extensions)

def listing (extensions : List Extension) : Text :=
  Json.write .pretty (.record (extensions.map fun e => (e.name, Value.record e.toFields)))

def run (c : Compilation) : Act Graph := do
  if c.done then throw (.definition .compiledTwice)
  note .compiling
  if !c.tree.isFolder c.settings.schema then throw (.file (.schemaFolder c.settings.schema))
  openCache
  let graph ← c.build.finally clearCache
  summarize
  note (.compiledVersion graph.version)
  let extensions := Entries.values graph.extensions
  if !extensions.isEmpty then note (.compiledExtensions (listing extensions))
  return graph

def finished (c : Compilation) : Compilation := { c with done := true }

end Compilation

def Settings.compile (s : Settings) (tree : Tree) : Act Graph := do
  s.announce
  Compilation.run { tree, settings := s }

end EventSchema
