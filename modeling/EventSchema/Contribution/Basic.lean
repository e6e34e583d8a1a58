import EventSchema.Extension.Basic
import EventSchema.Scan
import EventSchema.Scope
import EventSchema.Uid

/-!
What an extension contributes to a schema.

Everything is stamped with the extension that it comes from, the categories get their identifiers
inside the extension, and references to the extension's own profiles are written out, since those are
kept under scoped keys in the schema.
-/

set_option autoImplicit false

namespace EventSchema

structure Contribution where
  extension : Extension
  categories : Fields
  classes : Entries Fields
  classPatches : Entries Fields
  objects : Entries Fields
  objectPatches : Entries Fields
  dictionary : Fields
  profiles : Entries Fields

namespace Contribution

def extensionKey : Text := "extension"

def stampFields (extension : Extension) (fields : Fields) : Fields :=
  Entries.put "extension_id" (.int extension.uid)
    (Entries.put extensionKey (.text extension.name) fields)

def stamp (extension : Extension) : Value → Except Fault Value
  | .object mark fields => .ok (.object mark (stampFields extension fields))
  | _ => misused .operand

def stampSection (extension : Extension) (value : Value) : Except Fault Value := do
  let fields ← value.asFields
  return .record (← fields.mapM fun entry => do return (entry.1, ← stamp extension entry.2))

def stampCategory (extension : Extension) (category : Value) : Except Fault Value := do
  let uid ← match category.at_ "uid" with
    | .error (.misuse .key) => throw (.definition (.categoryWithout extension.name "uid"))
    | outcome => outcome
  let full ← Uid.category (.int extension.uid) uid
  stamp extension (← category.withField "uid" full)

def stamped (c : Contribution) : Except Fault Contribution := do
  let e := c.extension
  let categories ← (Entries.orEmpty "attributes" c.categories).asFields
  let categories ← categories.mapM fun entry => do
    return (entry.1, ← stampCategory e entry.2)
  let types ← (Entries.orEmpty "types" c.dictionary).asFields
  let attributes ← stampSection e (Entries.orEmpty "attributes" c.dictionary)
  let typeAttributes ← stampSection e (Entries.orEmpty "attributes" types)
  return { c with
    categories := Entries.put "attributes" (.record categories) c.categories
    classes := Entries.mapValues (stampFields e) c.classes
    classPatches := Entries.mapValues (stampFields e) c.classPatches
    objects := Entries.mapValues (stampFields e) c.objects
    objectPatches := Entries.mapValues (stampFields e) c.objectPatches
    profiles := Entries.mapValues (stampFields e) c.profiles
    dictionary :=
      Entries.put "types" (.record (Entries.put "attributes" typeAttributes types))
        (Entries.put "attributes" attributes c.dictionary) }

/-- A reference to a profile: scoped if it is a plain name of one of the extension's profiles. -/
def profileReference (c : Contribution) (profile : Value) : Except Fault Value := do
  if ← (Value.text "/").member profile then return profile
  if ← profile.isEntry c.profiles then
    return .text (Scope.within c.extension.name profile.shown)
  else return profile

def writeOutAttribute (c : Contribution) : Value → Except Fault Value
  | .object mark fields => do
    match Entries.get? "profile" fields with
    | some profile =>
      if profile.truthy then
        return .object mark (Entries.put "profile" (← profileReference c profile) fields)
      else return .object mark fields
    | none => return .object mark fields
  | value => .ok value

def writeOutItem (c : Contribution) (item : Fields) : Except Fault Fields := do
  let item ← match Entries.get? "profiles" item with
    | some profiles =>
      if profiles.truthy then
        let written ← (← profiles.iterate).mapM (profileReference c)
        pure (Entries.put "profiles" (.array written) item)
      else pure item
    | none => pure item
  match Entries.get? "attributes" item with
  | some attributes =>
    if attributes.truthy then
      let fields ← attributes.asFields
      let written ← fields.mapM fun entry => do
        return (entry.1, ← writeOutAttribute c entry.2)
      return Entries.put "attributes" (.record written) item
    else return item
  | none => return item

def writeOut (c : Contribution) (items : Entries Fields) : Except Fault (Entries Fields) :=
  items.mapM fun entry => do return (entry.1, ← writeOutItem c entry.2)

/-- All references to the extension's own profiles written out. -/
def withScopedProfiles (c : Contribution) : Act Contribution := do
  let classes ← (writeOut c c.classes : Except Fault (Entries Fields))
  let classPatches ← (writeOut c c.classPatches : Except Fault (Entries Fields))
  let objects ← (writeOut c c.objects : Except Fault (Entries Fields))
  let objectPatches ← (writeOut c c.objectPatches : Except Fault (Entries Fields))
  note (.extensionProfilesFixed c.extension.name)
  return { c with classes, classPatches, objects, objectPatches }

def optionalDocument (tree : Tree) (file : Path) : Act Fields :=
  if tree.isFile file then Fragment.load tree file else pure []

def read (tree : Tree) (schema : Path) (policy : DuplicatePolicy) (extension : Extension) :
    Act Contribution := do
  note (.extensionReading extension.name extension.path)
  let scan : Scan := {
    tree, policy
    places := .extension extension.path schema
    context := "extension " ++ extension.name.enclosed }
  let classes ← scan.patchable extension.path "events"
  let objects ← scan.patchable extension.path "objects"
  let categories ← optionalDocument tree (extension.path.child "categories.json")
  let dictionary ← optionalDocument tree (extension.path.child "dictionary.json")
  let profiles ← scan.items extension.path "profiles"
  return {
    extension, categories, dictionary, profiles
    classes := classes.items
    classPatches := classes.patches
    objects := objects.items
    objectPatches := objects.patches }

end Contribution

end EventSchema
