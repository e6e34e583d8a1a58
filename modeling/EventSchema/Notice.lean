import EventSchema.Fault

/-!
What a run reports while it goes on: notices, each of a level, and the references that it could not
resolve and left as they were.
-/

set_option autoImplicit false

namespace EventSchema

/-- The kinds of items that a schema defines in files of their own. -/
inductive ItemKind where
  | eventClass
  | object
  | profile
deriving DecidableEq, Inhabited, Repr

namespace ItemKind

def name : ItemKind → Text
  | eventClass => "class"
  | object => "object"
  | profile => "profile"

def title : ItemKind → Text
  | eventClass => "Class"
  | object => "Object"
  | profile => "Profile"

end ItemKind

/-- How much a notice matters. -/
inductive Level where
  | debug
  | info
  | warning
  | error
deriving DecidableEq, Inhabited, Repr

namespace Level

def rank : Level → Nat
  | debug => 10
  | info => 20
  | warning => 30
  | error => 40

def name : Level → Text
  | debug => "DEBUG"
  | info => "INFO"
  | warning => "WARNING"
  | error => "ERROR"

end Level

/-- A reference that leads nowhere; what holds it is kept without it. -/
inductive Unresolved where
  | notIncluded (context name : Text) (cause : Fault)
  | noParent (kind : ItemKind) (key : Text) (parent : Value)
  | nothingToPatch (context : Text) (kind : ItemKind) (name : Text)

def Unresolved.message : Unresolved → Text
  | notIncluded context name cause =>
    context ++ " " ++ name.enclosed ++ " cannot be included; using local definition as-is: "
      ++ (cause.message?).getD ∅
  | noParent kind key parent =>
    kind.name ++ " " ++ key.enclosed ++ " extends undefined " ++ kind.name ++ " "
      ++ parent.enclosed ++ "; using its own definition"
  | nothingToPatch context kind name =>
    context ++ " attempted to patch undefined " ++ kind.name ++ " " ++ name.enclosed
      ++ "; patch skipped"

/-- One line of the report of a run. -/
inductive Notice where
  -- files
  | fileRead (path : Path)
  | including (context : Text) (path : Path)
  | fragmentsCleared (count : Nat)
  | includeWithoutFields (context : Text)
  | laterDefinitionWins (fault : DuplicateFault)
  | versionFileIgnored (path : Path) (cause : Fault)
  | versionFileMissing (path : Path) (version : Value)
  | versionKeyMissing (path : Path)
  -- extensions
  | extensionPathIgnored (path : Path)
  | extensionFound (platform : Bool) (name : Text) (folder : Path)
  | extensionReading (name : Text) (folder : Path)
  | extensionProfilesFixed (name : Text)
  | dictionaryMerging (context : Text)
  | patching (context : Text) (name : Text)
  -- settings and progress of a compilation
  | schemaPath (path : Path)
  | platformExtensions (ignored : Bool) (path : Path)
  | extensionPaths (paths : List Path)
  | duplicatesAreWarnings
  | compiling
  | summary (errors warnings : Nat)
  | compiledVersion (version : Value)
  | compiledExtensions (listing : Text)
  | loading (path : Path)
  | loaded (version : Value)
  | loadFailed (current : Option Value)
  | compilationTook
  -- items
  | unresolved (reference : Unresolved)
  | resolving (kind : ItemKind) (key parent : Text)
  | observablesWithoutObject
  | fieldWithoutType (context : Text)
  | undefinedType (context : Text) (given : Value)
  | datetimeEnabled
  | otherCategory (key : Text)
  | noCategory (key : Text)
  | undefinedCategory (key : Text) (given : Value)
  | invalidUid (key : Text) (given : Value)
  | activityNotNumeric (key activity : Text)
  | activityOutOfRange (key : Text) (activity : Int)
  | noActivities (key : Text)
  | undefinedProfile (profile : Value) (kind : ItemKind) (key : Text)
  | undefinedFieldProfile (profile : Value) (kind : ItemKind) (key field : Text)
  | profilesConsolidated (kind : ItemKind) (key : Text) (profiles : List Value)
  | deprecatedItem (kind : ItemKind) (key : Text)
  | deprecatedField (kind : ItemKind) (key field : Text)
  | undefinedField (kind : ItemKind) (key field : Text)
  | genericDescription (kind : ItemKind) (key field : Text) (description : Value)
  | requirementsFilled (items : List Text)

namespace Notice

def level : Notice → Level
  | fileRead _ | including _ _ | extensionProfilesFixed _ | resolving _ _ _
  | profilesConsolidated _ _ _ => .debug
  | fragmentsCleared _ | extensionFound _ _ _ | extensionReading _ _ | dictionaryMerging _
  | patching _ _ | schemaPath _ | platformExtensions _ _ | extensionPaths _
  | duplicatesAreWarnings | compiling | compiledVersion _ | compiledExtensions _ | loading _
  | loaded _ | compilationTook | datetimeEnabled | otherCategory _ | deprecatedItem _ _
  | deprecatedField _ _ _ => .info
  | includeWithoutFields _ | laterDefinitionWins _ | versionFileIgnored _ _
  | versionFileMissing _ _ | versionKeyMissing _ | extensionPathIgnored _
  | observablesWithoutObject | fieldWithoutType _ | undefinedType _ _ | noCategory _
  | undefinedCategory _ _ | activityNotNumeric _ _ | activityOutOfRange _ _ | noActivities _
  | undefinedProfile _ _ _ | undefinedFieldProfile _ _ _ _ | undefinedField _ _ _
  | genericDescription _ _ _ _ | requirementsFilled _ => .warning
  | unresolved _ | invalidUid _ _ | loadFailed _ => .error
  | summary errors warnings =>
    if errors ≠ 0 then .error else if warnings ≠ 0 then .warning else .info

/-- The wording of a notice; `elapsed` stands for the seconds that something took. -/
def message (elapsed : Text) : Notice → Text
  | fileRead path => "Reading schema file: " ++ path.text
  | including context path => context ++ ": including " ++ path.text
  | fragmentsCleared count =>
    "Fragment cache already initialized; clearing " ++ Text.ofNat count ++ " cached fragment(s)"
  | includeWithoutFields context =>
    context ++ ": include file suspiciously has no attributes"
  | laterDefinitionWins fault => fault.message ++ "; the later definition wins"
  | versionFileIgnored path cause =>
    "Ignoring unreadable version file " ++ path.text ++ ": " ++ (cause.message?).getD ∅
  | versionFileMissing path version =>
    "Schema version file does not exist (is this a schema directory?): " ++ path.text
      ++ "; using version " ++ version.enclosed
  | versionKeyMissing path =>
    "The \"version\" key is missing in the schema version file: " ++ path.text
  | extensionPathIgnored path => "Ignoring invalid extension path: " ++ path.text
  | extensionFound platform name folder =>
    (if platform then "Found platform extension " else "Found extension ") ++ name.enclosed
      ++ " in directory: " ++ folder.text
  | extensionReading name folder =>
    "Reading extension " ++ name.enclosed ++ " from directory: " ++ folder.text
  | extensionProfilesFixed name => "Fixed profile references of extension " ++ name.enclosed
  | dictionaryMerging context => context ++ " is safely merging over existing attribute"
  | patching context name =>
    "Patch: " ++ context ++ " is patching " ++ name.enclosed ++ " from base schema"
  | schemaPath path => "Schema path: " ++ path.text
  | platformExtensions ignored path =>
    (if ignored then "Ignoring" else "Including") ++ " platform extensions (if any) at path: "
      ++ path.text
  | extensionPaths paths =>
    "Including extensions path(s): " ++ Text.join ", " (paths.map Path.text)
  | duplicatesAreWarnings => "Duplicate names will be reported as warnings (last one wins)"
  | compiling => "Compiling schema"
  | summary errors warnings =>
    if errors ≠ 0 ∧ warnings ≠ 0 then
      "Compile completed with " ++ Text.ofNat errors ++ " error(s) and " ++ Text.ofNat warnings
        ++ " warning(s)"
    else if errors ≠ 0 then
      "Compile completed with " ++ Text.ofNat errors ++ " (tolerated) error(s)"
    else if warnings ≠ 0 then
      "Compile completed with " ++ Text.ofNat warnings ++ " warning(s)"
    else "Compile completed successfully"
  | compiledVersion version => "Compiled schema base version: " ++ version.shown
  | compiledExtensions listing =>
    "Compiled schema includes the following extension(s):\n" ++ listing
  | loading path => "Loading schema from " ++ path.text
  | loaded version => "Schema version " ++ version.shown ++ " loaded in " ++ elapsed ++ " seconds"
  | loadFailed none => "Schema load failed; no schema is installed"
  | loadFailed (some version) =>
    "Schema reload failed; keeping schema version " ++ version.shown
  | compilationTook => "Schema compilation took " ++ elapsed ++ " seconds"
  | unresolved reference => reference.message
  | resolving kind key parent =>
    "Resolving " ++ kind.name ++ " " ++ key.enclosed ++ " extends " ++ parent.enclosed
  | observablesWithoutObject =>
    "Schema defines observables but no \"observable\" object; skipping the observable type_id "
      ++ "enumeration"
  | fieldWithoutType context => context ++ " does not define \"type\""
  | undefinedType context given =>
    context ++ " uses undefined type or object " ++ given.enclosed
  | datetimeEnabled =>
    "Datetime siblings of \"timestamp_t\" attributes will be added because the schema defines the "
      ++ "\"datetime\" profile and the \"datetime_t\" and \"timestamp_t\" dictionary types."
  | otherCategory key =>
    "Class " ++ key.enclosed ++ " uses special undefined category \"other\""
  | noCategory key => "Class " ++ key.enclosed ++ " has no category"
  | undefinedCategory key given =>
    "Class " ++ key.enclosed ++ " has undefined category " ++ given.enclosed
  | invalidUid key given =>
    "Class " ++ key.enclosed ++ " has invalid \"uid\" " ++ given.spelled
      ++ "; expected an integer from 0 to 999"
  | activityNotNumeric key activity =>
    "Class " ++ key.enclosed ++ " has non-numeric activity enum value " ++ activity.enclosed
  | activityOutOfRange key activity =>
    "Class " ++ key.enclosed ++ " activity enum value " ++ Text.ofInt activity
      ++ " is out of range"
  | noActivities key =>
    "Class " ++ key.enclosed
      ++ " has neither an \"activity_id\" nor a \"disposition_id\" enum"
  | undefinedProfile profile kind key =>
    "Undefined profile " ++ profile.enclosed ++ " used in " ++ kind.name ++ " " ++ key.enclosed
  | undefinedFieldProfile profile kind key field =>
    "Undefined profile " ++ profile.enclosed ++ " used in " ++ kind.name ++ " " ++ key.enclosed
      ++ " attribute " ++ field.enclosed
  | profilesConsolidated kind key profiles =>
    "Consolidated profiles of " ++ kind.name ++ " " ++ key.enclosed ++ ": "
      ++ (Value.array profiles).spelled
  | deprecatedItem kind key => kind.title ++ " " ++ key.enclosed ++ " is deprecated"
  | deprecatedField kind key field =>
    kind.title ++ " " ++ key.enclosed ++ " uses deprecated attribute " ++ field.enclosed
  | undefinedField kind key field =>
    kind.title ++ " " ++ key.enclosed ++ " uses undefined attribute " ++ field.enclosed
  | genericDescription kind key field description =>
    "Please update the \"description\" of " ++ kind.name ++ " " ++ key.enclosed ++ " attribute "
      ++ field.enclosed ++ ": " ++ description.enclosed
  | requirementsFilled items =>
    "The following attributes do not have a \"requirement\" property and a value of \"optional\" "
      ++ "will be used:\n    " ++ Text.join "\n    " items

end Notice

end EventSchema
