import EventSchema.Compilation
import EventSchema.Graph.Query

/-!
A repository holds the current graph of a schema and compiles it anew on request.

A reload that succeeds replaces the graph and the settings together. One that fails leaves both as
they were, so a question to the repository is always answered from the last schema that compiled.
-/

set_option autoImplicit false

namespace EventSchema

/-- The current graph, if there is one yet, and what a reload compiles. -/
structure Repository where
  schema : Path
  extensionPaths : Option (List Path) := none
  ignorePlatform : Bool := false
  duplicates : DuplicatePolicy := .error
  current : Option Graph := none

namespace Repository

structure Reload where
  outcome : Except Fault Graph
  notices : List Notice
  repository : Repository

def isLoaded (r : Repository) : Bool := r.current.isSome

def graph (r : Repository) : Except Fault Graph :=
  match r.current with
  | some graph => .ok graph
  | none => .error (.definition .nothingLoaded)

def settings (r : Repository) : Settings where
  schema := r.schema
  ignorePlatform := r.ignorePlatform
  extensionPaths := r.extensionPaths.getD []
  duplicates := r.duplicates

def redirect (r : Repository) (schema : Option Path) (extensionPaths : Option (List Path)) :
    Repository :=
  { r with
    schema := schema.getD r.schema
    extensionPaths := extensionPaths.or r.extensionPaths }

/-- Whether a fault is one of the schema or of its files, which a failed load is reported for. -/
def reports : Fault → Bool
  | .range _ | .misuse _ => false
  | _ => true

/-- Compile the schema as the files are now, and install the graph if there is one. -/
def reload (r : Repository) (tree : Tree) (schema : Option Path)
    (extensionPaths : Option (List Path)) : Reload :=
  let next := r.redirect schema extensionPaths
  match (next.settings.compile tree).outcome {} with
  | (.ok graph, run) =>
    { outcome := .ok graph
      notices := .loading next.schema :: run.notices ++ [.loaded graph.version]
      repository := { next with current := some graph } }
  | (.error fault, run) =>
    let last : List Notice :=
      if reports fault then [.loadFailed (r.current.map Graph.version)] else []
    { outcome := .error fault
      notices := .loading next.schema :: run.notices ++ last
      repository := r }

def load (r : Repository) (tree : Tree) : Reload := r.reload tree none none

/-! ### Questions -/

def ask {α : Type} (r : Repository) (question : Graph → Except Fault α) : Except Fault α := do
  question (← r.graph)

def version (r : Repository) : Except Fault Value := r.ask fun g => .ok g.version

def baseEvent (r : Repository) : Except Fault Entity := r.ask Graph.baseEvent

def classesOf (r : Repository) (extensions : Value) : Except Fault (Entries Entity) :=
  r.ask (·.classesOf extensions)

def class? (r : Repository) (name : Value) (extension : Option Value) : Except Fault (Option Entity) :=
  r.ask (·.class? name extension)

def classOfUid? (r : Repository) (uid : Value) : Except Fault (Option Entity) := r.ask (·.classOfUid? uid)

def objectsOf (r : Repository) (extensions : Value) : Except Fault (Entries Entity) :=
  r.ask (·.objectsOf extensions)

def object? (r : Repository) (name : Value) (extension : Option Value) : Except Fault (Option Entity) :=
  r.ask (·.object? name extension)

def categoriesOf (r : Repository) (extensions : Value) : Except Fault (Entries Category) :=
  r.ask (·.categoriesOf extensions)

def category? (r : Repository) (name : Value) (extension : Option Value) :
    Except Fault (Option Category) :=
  r.ask (·.category? name extension)

def classesOfCategory (r : Repository) (key extensions : Value) : Except Fault (Entries Entity) :=
  r.ask (·.classesOfCategory key extensions)

def allClasses (r : Repository) : Except Fault (Entries Fields) :=
  r.ask fun g => .ok g.allClasses

def allObjects (r : Repository) : Except Fault (Entries Fields) :=
  r.ask fun g => .ok g.allObjects

def dictionary (r : Repository) : Except Fault Dictionary :=
  r.ask fun g => .ok g.dictionary

def dataTypes (r : Repository) : Except Fault (Entries Attribute) :=
  r.ask fun g => .ok g.dictionary.types

def profilesOf (r : Repository) (extensions : Value) : Except Fault (Entries Profile) :=
  r.ask (·.profilesOf extensions)

def profile? (r : Repository) (name : Value) (extension : Option Value) :
    Except Fault (Option Profile) :=
  r.ask (·.profile? name extension)

def extensions (r : Repository) : Except Fault (Entries Extension) :=
  r.ask fun g => .ok g.extensions

def referencedBy (r : Repository) (key : Value) : Except Fault (List Link) := r.ask (·.referencedBy key)

def attributeUsedBy (r : Repository) (name : Value) : Except Fault (List Link) :=
  r.ask (·.attributeUsedBy name)

def profileUsedBy (r : Repository) (key : Value) : Except Fault (List Link) :=
  r.ask (·.profileUsedBy key)

def toFields (r : Repository) : Except Fault Fields := r.ask Graph.toFields

end Repository

end EventSchema
