import EventSchema.Fragment.Loader

/-!
Expanding include directives.

A directive among the attributes of an item pulls in the attributes of other files, typically of
profiles. A directive inside one attribute pulls in whole files, typically shared enumerations. Either
names one file or a list of files, applied from left to right; what the item says itself wins over
what it includes, and what is included first wins over what comes later. Included files may include
others, which are expanded before they are merged. All of this is done in place, to the item and to a copy
of what is included.

A file that cannot be read is reported and left out. A file that includes itself, directly or through
others, stops the run with the chain of files. Since every file on the way is a file of the tree and
none is entered twice, the expansion ends.
-/

set_option autoImplicit false

namespace EventSchema

/-- Where the files that an item names are looked for. -/
inductive Places where
  /-- In the schema folder. -/
  | schema (folder : Path)
  /-- In the folder of an extension, then in the schema folder. -/
  | extension (folder schema : Path)
  /-- Wherever a rule says. -/
  | rule (find : Text → Except Fault Path)

def Places.find (tree : Tree) (name : Text) : Places → Except Fault Path
  | .schema folder => .ok (folder.child name)
  | .extension folder base =>
    let own := folder.child name
    let shared := base.child name
    if tree.isFile own then .ok own
    else if tree.isFile shared then .ok shared
    else .error (.file (.includeNotFound name folder base))
  | .rule find => find name

namespace Include

def directive : Text := "$include"

def fileNames (context : Text) (given : Value) : Except Fault (List Text) :=
  let refused : Except Fault (List Text) := .error (.definition (.includeValue context given))
  match given with
  | .text name => .ok [name]
  | .array items => match items.mapM Value.text? with
    | some names => .ok names
    | none => refused
  | _ => refused

def tag (name : Value) (attributes : Fields) : Fields :=
  Entries.mapValues (fun
    | .object mark fields => .object mark (Entries.putNew "profile" name fields)
    | value => value) attributes

/-- An item's own attributes merged over included ones. -/
def mergeOwn (included : Value) (own : Fields) : Except Fault Value :=
  if own.isEmpty then .ok included
  else do return .record (Value.overlay (← included.asFields) own)

end Include

namespace Aliased

/-- Included attributes, each tagged with the name of the profile unless it has one. -/
def tag (name attributes : Aliased) : Except Fault Aliased := do
  let fields ← attributes.value.asFields
  let isUntagged (name : Text) : Bool := match Entries.get? name fields with
    | some (.object _ own) => !Entries.has "profile" own
    | _ => false
  return {
    value := .record (Include.tag name.value fields)
    aliases := attributes.aliases.putEach "profile" isUntagged name.aliases }

def mergeOwn (included attributes : Aliased) (own : Fields) : Except Fault Aliased := do
  return {
    value := ← Include.mergeOwn included.value own
    aliases := included.aliases.merge attributes.aliases included.value attributes.value }

/-- An item whose attributes are now the given ones, after its own were merged into these. -/
def adopt (item attributes : Aliased) : Act Aliased := do
  let own := item.orNull "attributes"
  let merged ← (← attributes.mergeOwn own (← own.value.asFields)).write
  (item.put "attributes" merged).write

def mergeIncluded (context : Text) (item included : Aliased) : Act Aliased := do
  let included := { included with value := included.value.shift item.value.bound }
  match included.get? "attributes" with
  | none =>
    warn (.includeWithoutFields context)
    return item
  | some attributes =>
    let isProfile := match included.get? "meta" with
      | some sort => sort.value.equals (.text "profile")
      | none => false
    let attributes ←
      if isProfile then
        match included.get? "name" with
        | none => throw (.definition (.profileWithoutName context))
        | some name =>
          let marked := (name.value.mark (max item.value.bound included.value.bound)).1
          let attributes ← ({ name with value := marked } : Aliased).tag attributes
          attributes.write
      else pure attributes
    item.adopt attributes

/-- How an included file is read: by its name, in the given context; none if it cannot be. -/
abbrev Reader := Text → Text → Act (Option Aliased)

def mergeAll (read : Reader) (context : Text) (names : List Text) (item : Aliased) : Act Aliased :=
  names.foldlM (fun item name => do
    match ← read name context with
    | some included => item.mergeIncluded context included
    | none => return item) item

def mergeUnder (read : Reader) (context : Text) (names : List Text) (value : Aliased) :
    Act Aliased :=
  names.foldlM (fun merged name => do
    match ← read name context with
    | some included =>
      let included ← (included.erase "attributes").write
      (included.merge merged).write
    | none => return merged) value

def withAttribute (item : Aliased) (before : Fields) (name : Text) (changed : Aliased) (after : Fields) :
    Aliased :=
  item.put "attributes"
    { value := .record (before ++ (name, changed.value) :: after)
      aliases := (item.aliases.below "attributes").put name changed.aliases }

def expandEach (read : Reader) (context : Text) (item : Aliased) (done : Fields) :
    Fields → Act Aliased
  | [] => return item.put "attributes" ⟨.record done, item.aliases.below "attributes"⟩
  | (name, value) :: rest => do
    let own : Aliased := ⟨value, (item.aliases.below "attributes").below name⟩
    match own.get? Include.directive with
    | none => expandEach read context item (done ++ [(name, value)]) rest
    | some given =>
      let bare := own.erase Include.directive
      let item ← (item.withAttribute done name bare rest).write
      let inside := context ++ " attributes." ++ name ++ ".$include"
      let names ← Include.fileNames inside given.value
      let merged ← mergeUnder read inside names bare
      let item ← (item.withAttribute done name merged rest).write
      expandEach read context item (done ++ [(name, merged.value)]) rest

def expandWith (read : Reader) (context : Text) (item : Aliased) : Act Aliased := do
  match item.get? "attributes" with
  | some attributes@⟨.object _ _, _⟩ =>
    let item ← match attributes.get? Include.directive with
      | none => pure item
      | some given => do
        let item ← (item.put "attributes" (attributes.erase Include.directive)).write
        let context := context ++ " attributes.$include"
        let names ← Include.fileNames context given.value
        mergeAll read context names item
    expandEach read context item [] (← (item.orNull "attributes").value.asFields)
  | _ => return item

end Aliased

namespace Include

/-- The resolved path of a file that an item names, and its fragment as the cache holds it. -/
def borrow (tree : Tree) (places : Places) (name : Text) : Act (Path × Aliased) := do
  let path ← tree.resolveNamed (← places.find tree name)
  return (path, ← Fragment.borrow tree path)

/-- Whether an include that meets the fault is left out: the file is not there or is no document. -/
def isTolerated : Fault → Bool
  | .file _ | .document _ => true
  | _ => false

def candidates (tree : Tree) : List Path :=
  (tree.root.files []).map fun file => { anchor := .top, names := file.1 }

/-- Entering one more file leaves fewer files to enter. -/
theorem remaining_lt {files stack : List Path} {path : Path} (present : path ∈ files)
    (fresh : path ∉ stack) :
    (files.filter (· ∉ stack ++ [path])).length < (files.filter (· ∉ stack)).length := by
  have split : files.filter (· ∉ stack ++ [path]) =
      (files.filter (· ∉ stack)).filter (· ≠ path) := by
    rw [List.filter_filter]
    congr 1
    funext other
    simp [not_or, and_comm]
  rw [split]
  apply List.length_filter_lt_length_iff_exists.mpr
  exact ⟨path, by simp [present, fresh], by simp⟩

/-- An expanded copy of the fragment of an included file. `stack` holds the files that are being expanded,
outermost first. -/
def readCopy (tree : Tree) (places : Places) (stack : List Path) (name context : Text) :
    Act (Option Aliased) := do
  match ← (borrow tree places name).attempt with
  | .error fault =>
    if isTolerated fault then
      leaveUnresolved (.notIncluded context name fault)
      return none
    else throw fault
  | .ok (path, fragment) =>
    if _ : path ∈ stack then
      throw (.integrity (.includeCycle context (stack ++ [path])))
    else if _ : path ∈ candidates tree then
      note (.including context path)
      let included ← fragment.copy.expandWith
        (fun name context => readCopy tree places (stack ++ [path]) name context)
        ("include " ++ name.enclosed)
      return some included
    else throw (.file (.missing path))
termination_by ((candidates tree).filter (· ∉ stack)).length
decreasing_by exact remaining_lt (by assumption) (by assumption)

/-- A value with every directive in it expanded in place, as a file at `origin` if one is given. -/
def expandIn (tree : Tree) (places : Places) (context : Text) (origin : Option Path)
    (item : Aliased) : Act Aliased := do
  let stack ← match origin with
    | some file => do pure [← tree.resolveNamed file]
    | none => pure []
  item.expandWith (readCopy tree places stack) context

/-- An item, of which nothing is in the cache, with every directive in it expanded. -/
def expand (tree : Tree) (places : Places) (context : Text) (origin : Option Path)
    (item : Fields) : Act Fields := do
  return (← expandIn tree places context origin (.own (.record item))).fields

end Include

end EventSchema
