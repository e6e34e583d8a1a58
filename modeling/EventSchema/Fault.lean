import EventSchema.Json.Reader
import EventSchema.Path
import EventSchema.Utf8
import EventSchema.Value.Basic

/-!
What can stop a run.

A fault is a cause, grouped by what was wrong: a definition, a file's content, a name taken twice, the
schema as a whole, an identifier out of its range, or the file system. The last group, `Misuse`, is
for values whose kind does not allow what is asked of them. The wording of each cause stands in one
function, `Fault.message`.
-/

set_option autoImplicit false

namespace EventSchema

/-- A definition that cannot be taken as it stands. -/
inductive DefinitionFault where
  | requirement (given : Value)
  | includeValue (context : Text) (given : Value)
  | profileWithoutName (context : Text)
  | noName (kind : Text) (file : Path)
  | nameNotText (kind : Text) (given : Value) (file : Path)
  | noNameOrParent (kind : Text) (file : Path)
  | extensionNameNotText (kind : Text) (given : Value) (file : Path)
  | extensionParentNotText (kind : Text) (given : Value) (file : Path)
  | manifestUid (given : Value) (file : Path)
  | manifestName (given : Value) (file : Path)
  | manifestNameScoped (file : Path)
  | categoryWithout (extension : Text) (key : Text)
  | typeChange (context : Text) (new old : Value)
  | objectTypeChange (context : Text) (new old : Value)
  | requirementChange (context : Text) (new old : Value)
  | patchAcrossExtensions (context : Text) (name : Text) (owner : Value)
  | compiledTwice
  | nothingLoaded

/-- Why the content of a file is no document. -/
inductive ContentFault where
  | utf8 (fault : Utf8.Fault)
  | json (fault : Json.Fault)

/-- A file that holds no document of the right shape. -/
inductive DocumentFault where
  | notJson (fault : ContentFault) (file : Path)
  | notObject (given : Value) (file : Path)
  | annotations (given : Value) (file : Option Path)

/-- A name or an identifier that two definitions give. -/
inductive DuplicateFault where
  | itemName (context : Text) (caption existing : Value) (origin : Value) (file : Path)
  | observable (id : Text) (context : Text) (caption description : Value)
  | observableEnum (id : Text) (caption : Value)
  | dictionaryField (context : Text) (owner : Value)
  | dictionaryType (extension : Text) (name : Text) (owner : Option Value)

/-- What keeps the definitions from forming a schema. -/
inductive IntegrityFault where
  | includeCycle (context : Text) (chain : List Path)
  | parentCycle (kind : Text) (chain : List Text)
  | extensionUid (uid : Int) (name : Text) (path : Path) (otherName : Text) (otherPath : Path)
  | extensionName (name : Text) (path otherPath : Path)
  | noDictionary
  | noBaseEvent
  | requiredFile (file : Path)

/-- An identifier outside the range that its scope leaves for it. -/
inductive RangeFault where
  | category (uid : Value)
  | eventClass (uid : Value)
  | activity (uid : Value)

inductive FileFault where
  | missing (path : Path)
  | isFolder (path : Path)
  | notFolder (path : Path)
  | includeNotFound (name : Text) (extension schema : Path)
  | schemaFolder (path : Path)

inductive Misuse where
  /-- An operand of the wrong kind. -/
  | operand
  /-- A member that only another kind has. -/
  | member
  /-- A key that is not there. -/
  | key
  /-- A value of the right kind with a content that does not do. -/
  | content
  /-- A position outside a list. -/
  | position
  /-- A number too large for a double. -/
  | magnitude
  /-- A text that no bytes can be written for. -/
  | unwritable
deriving DecidableEq, Repr

inductive Fault where
  | definition (fault : DefinitionFault)
  | document (fault : DocumentFault)
  | duplicate (fault : DuplicateFault)
  | integrity (fault : IntegrityFault)
  | range (fault : RangeFault)
  | file (fault : FileFault)
  | misuse (fault : Misuse)

namespace Fault

/-- Two paths or keys that follow each other in a cycle. -/
def arrow : Text := " -> "

end Fault

def Value.enclosed (v : Value) : Text := v.shown.enclosed

def Value.enclosed? (v : Value) : Option Text := if v.truthy then some v.enclosed else none

def DefinitionFault.message : DefinitionFault → Text
  | requirement given => "Unknown requirement: " ++ given.enclosed
  | includeValue context given =>
    "Illegal " ++ context ++ " value type: expected string or array of strings, but got "
      ++ given.typeName
  | profileWithoutName context => "Profile \"name\" is missing in " ++ context
  | noName kind file =>
    "The \"name\" value in " ++ kind ++ " file must have a value: " ++ file.text
  | nameNotText kind given file =>
    "The \"name\" value in " ++ kind ++ " file must be a string, but got " ++ given.typeName
      ++ ": " ++ file.text
  | noNameOrParent kind file =>
    "Extension " ++ kind ++ " file does not have a \"name\" or \"extends\" value: " ++ file.text
  | extensionNameNotText kind given file =>
    "The \"name\" value in extension " ++ kind ++ " file must be a string, but got "
      ++ given.typeName ++ ": " ++ file.text
  | extensionParentNotText kind given file =>
    "The \"extends\" value in extension " ++ kind ++ " file must be a string, but got "
      ++ given.typeName ++ ": " ++ file.text
  | manifestUid given file =>
    "The extension \"uid\" must be an integer but got " ++ given.typeName ++ ": " ++ file.text
  | manifestName given file =>
    "The extension \"name\" must be a non-empty string but got " ++ given.typeName ++ ": "
      ++ file.text
  | manifestNameScoped file => "The extension \"name\" must not contain \"/\": " ++ file.text
  | categoryWithout extension key =>
    "Malformed category in extension " ++ extension.enclosed ++ " - missing " ++ key.quoted
  | typeChange context new old =>
    context ++ " attempted to make unsafe type change; " ++ new.enclosed
      ++ " overwriting existing " ++ old.enclosed
  | objectTypeChange context new old =>
    context ++ " attempted to make unsafe object type change; " ++ new.enclosed
      ++ " overwriting existing " ++ old.enclosed
  | requirementChange context new old =>
    let named (v : Value) : Text := v.enclosed?.getD "None"
    context ++ " attempted to make unsafe requirement change with " ++ named new
      ++ " reducing existing requirement of " ++ named old
  | patchAcrossExtensions context name owner =>
    "Illegal patch attempt: " ++ context ++ " attempted to patch " ++ name.enclosed
      ++ " from extension " ++ owner.enclosed
      ++ "; extensions are not allowed to patch each other as the results are non-deterministic"
  | compiledTwice => "Schema already compiled (compile can only be run once)"
  | nothingLoaded => "No schema has been loaded"

def ContentFault.message : ContentFault → Text
  | utf8 fault => fault.message
  | json fault => fault.message

def DocumentFault.message : DocumentFault → Text
  | notJson fault file =>
    "Schema file is not valid JSON (" ++ fault.message ++ "): " ++ file.text
  | notObject given file =>
    "Schema file contains a JSON " ++ given.typeName ++ " value, but should contain an object: "
      ++ file.text
  | annotations given file =>
    let place : Text := match file with
      | some path => path.text
      | none => "None"
    "The \"annotations\" value must be an object, but got " ++ given.typeName ++ ": " ++ place

def DuplicateFault.message : DuplicateFault → Text
  | itemName context caption existing origin file =>
    "Collision of name in " ++ context ++ ": caption " ++ caption.enclosed
      ++ " collides with caption " ++ existing.enclosed ++ " from " ++ origin.shown ++ ", file: "
      ++ file.text
  | observable id context caption description =>
    "Collision of observable type_id " ++ id ++ " between " ++ context ++ " and "
      ++ caption.enclosed ++ ": " ++ description.shown
  | observableEnum id caption =>
    "Collision of observable type_id " ++ id ++ " (" ++ caption.shown
      ++ ") with the \"observable\" object type_id enum"
  | dictionaryField context owner =>
    "Collision: " ++ context ++ " collides with attribute from extension " ++ owner.enclosed
      ++ "; extensions are not allowed to modify each other as the results are non-deterministic"
  | dictionaryType extension name owner =>
    let place : Text := match owner with
      | some v => "extension " ++ v.enclosed
      | none => "base schema"
    "Collision: extension " ++ extension.enclosed ++ " dictionary type " ++ name.enclosed
      ++ " is trying to overwrite " ++ place
      ++ " type; modifying dictionary types is not supported"

def IntegrityFault.message : IntegrityFault → Text
  | includeCycle context chain =>
    "Cyclic $include detected in " ++ context ++ ": "
      ++ Text.join Fault.arrow (chain.map Path.text)
  | parentCycle kind chain =>
    "Cyclic " ++ kind ++ " extends chain: " ++ Text.join Fault.arrow chain
  | extensionUid uid name path otherName otherPath =>
    "Collision of extension uid " ++ Text.ofInt uid ++ ": extension " ++ name.enclosed ++ " at "
      ++ path.text ++ " and extension " ++ otherName.enclosed ++ " at " ++ otherPath.text
  | extensionName name path otherPath =>
    "Collision of extension name " ++ name.enclosed ++ ": " ++ path.text ++ " and "
      ++ otherPath.text
  | noDictionary => "Schema dictionary is missing or has no attributes"
  | noBaseEvent => "Schema has not defined a \"base_event\" class"
  | requiredFile file => "Required schema file does not exist: " ++ file.text

def RangeFault.message : RangeFault → Text
  | category uid =>
    "category_uid " ++ uid.shown ++ " should be less than 100 (not yet extension UID scoped)"
  | eventClass uid =>
    "class UID " ++ uid.shown ++ " should be less than 1000 (not yet category UID scoped)"
  | activity uid =>
    "type_uid " ++ uid.shown ++ " should be less than 100 (not class UID scoped)"

def FileFault.message : FileFault → Text
  | missing path => "[Errno 2] No such file or directory: " ++ path.text.quoted
  | isFolder path => "[Errno 21] Is a directory: " ++ path.text.quoted
  | notFolder path => "[Errno 20] Not a directory: " ++ path.text.quoted
  | includeNotFound name extension schema =>
    "\"$include\" " ++ name ++ " not found in extension directory " ++ extension.text
      ++ " or schema directory " ++ schema.text
  | schemaFolder path => "Schema path does not exist: " ++ path.text

def Fault.message? : Fault → Option Text
  | definition fault => some fault.message
  | document fault => some fault.message
  | duplicate fault => some fault.message
  | integrity fault => some fault.message
  | range fault => some fault.message
  | file fault => some fault.message
  | misuse _ => none

def Path.NameFault.misuse : Path.NameFault → Misuse
  | zeroCode => .content
  | surrogate => .unwritable

end EventSchema
