import EventSchema.Contribution.Basic
import EventSchema.Value.Sharing

/-!
Extending the dictionary of a schema.

New attributes and types are added. An attribute of the base schema may be refined as long as neither
its type nor its object type changes and its requirement is not relaxed; it stays the base schema's.
An attribute of another extension and an existing type cannot be touched.
-/

set_option autoImplicit false

namespace EventSchema.Contribution

/-- A field that decides what an attribute holds must not change if the extension gives it. -/
def keeps (key : Text) (fault : Value → Value → DefinitionFault) (new : Fields) (base : Value) :
    Except Fault Unit :=
  match Entries.get? key new with
  | none => .ok ()
  | some given => do
    let old := Value.ofOption (← base.field? key)
    if given.equals old then return () else throw (.definition (fault given old))

def refinable (context : Text) (new : Fields) (base : Value) : Except Fault Unit := do
  if ← (Value.text extensionKey).member base then
    throw (.duplicate (.dictionaryField context (← base.at_ extensionKey)))
  keeps "type" (.typeChange context) new base
  keeps "object_type" (.objectTypeChange context) new base
  let required := Entries.orNull "requirement" new
  let requiredBefore := Value.ofOption (← base.field? "requirement")
  if !required.isNull then
    let rank ← requirementRank required
    let rankBefore ← requirementRank requiredBefore
    if rank < rankBefore then
      throw (.definition (.requirementChange context required requiredBefore))

/-- What is merged into the base attributes for one attribute of an extension: the attribute itself if
it is new, and if it refines one, the attribute without its owner. -/
def contributed (extension : Extension) (name : Text) (new existing : Value) : Act Value := do
  if !existing.truthy then return new
  let context :=
    "Extension " ++ extension.name.enclosed ++ " dictionary attribute " ++ name.enclosed
  let fields ← new.asFields
  (refinable context fields existing : Except Fault Unit)
  note (.dictionaryMerging context)
  return .record (Entries.erase "extension_id" (Entries.erase extensionKey fields))

def mergeAttributes (extension : Extension) (base : Value) (new : List (Text × Value)) :
    Act Value := do
  match new with
  | [] => return base
  | (name, value) :: later =>
    let attributes ← base.asFields
    let given ← contributed extension name value (Entries.orNull name attributes)
    mergeAttributes extension (.record (Value.overlayOne name given attributes later).1)
      (Value.overlayOne name given attributes later).2
termination_by new.length
decreasing_by simp [Value.overlayOne_later_length]

def addType (extension : Extension) (base : Value) (name : Text) (new : Value) :
    Except Fault Value := do
  if ← (Value.text name).member base then
    let existing ← base.at_ name
    let owner ←
      if ← (Value.text extensionKey).member existing then
        pure (some (← existing.at_ extensionKey))
      else pure none
    throw (.duplicate (.dictionaryType extension.name name owner))
  else base.withField name new

def extendDictionary (c : Contribution) (dictionary : Fields) : Act Fields := do
  let new ← (Entries.orEmpty "attributes" c.dictionary).asFields
  let new := Value.shiftFields (Value.boundFields dictionary) new
  let attributes ←
    mergeAttributes c.extension (Entries.orEmpty "attributes" dictionary) new
  let types ← (Entries.orEmpty "types" dictionary).asFields
  let newTypes ← (Entries.orEmpty "types" c.dictionary).asFields
  let newTypes ← (Entries.orEmpty "attributes" newTypes).asFields
  let typeAttributes ← newTypes.foldlM
    (fun base entry => (addType c.extension base entry.1 entry.2 : Except Fault Value))
    (Entries.orEmpty "attributes" types)
  return Entries.put "types" (.record (Entries.put "attributes" typeAttributes types))
    (Entries.put "attributes" attributes dictionary)

end EventSchema.Contribution
