import EventSchema.Text.Printable

/-!
The flags of the command line and what can be wrong with its use.

A flag has a long spelling and perhaps a short one. A long spelling may be cut short as long as it
stays the only one, and a value may be attached to it after an equals sign.
-/

set_option autoImplicit false

namespace EventSchema.CommandLine

/-- What a command line can ask for beside the path of the schema. -/
inductive Flag where
  | help
  | ignorePlatform
  | extensionsPath
  | duplicates
  | workers
  | logLevel
  | version
deriving DecidableEq, Repr

namespace Flag

def all : List Flag :=
  [help, ignorePlatform, extensionsPath, duplicates, workers, logLevel, version]

def spellings : Flag → List Text
  | help => ["-h", "--help"]
  | ignorePlatform => ["-i", "--ignore-platform-extensions"]
  | extensionsPath => ["-e", "--extensions-path"]
  | duplicates => ["--duplicates"]
  | workers => ["--workers"]
  | logLevel => ["--log-level"]
  | version => ["-v", "--version"]

def takesValue : Flag → Bool
  | help | ignorePlatform | version => false
  | _ => true

def title (f : Flag) : Text := Text.join "/" f.spellings

def spelled : List (Text × Flag) := all.flatMap fun f => f.spellings.map fun s => (s, f)

def ofSpelling? (t : Text) : Option Flag :=
  (spelled.find? fun entry => entry.1 = t).map Prod.snd

def startedBy (t : Text) : List (Text × Flag) := spelled.filter fun entry => entry.1.startsWith t

end Flag

/-- Why a command line cannot be followed. -/
inductive UsageFault where
  | ambiguous (given : Text) (candidates : List Text)
  | expectsValue (flag : Flag)
  | ignoresValue (flag : Flag) (given : Text)
  | notWhole (flag : Flag) (given : Text)
  | noChoice (flag : Flag) (given : Text) (choices : List Text)
  | pathRequired
  | unrecognized (words : List Text)
  | tooFewWorkers

def UsageFault.message : UsageFault → Text
  | ambiguous given candidates =>
    "ambiguous option: " ++ given ++ " could match " ++ Text.join ", " candidates
  | expectsValue flag => "argument " ++ flag.title ++ ": expected one argument"
  | ignoresValue flag given =>
    "argument " ++ flag.title ++ ": ignored explicit argument " ++ given.quoted
  | notWhole flag given => "argument " ++ flag.title ++ ": invalid int value: " ++ given.quoted
  | noChoice flag given choices =>
    "argument " ++ flag.title ++ ": invalid choice: " ++ given.quoted ++ " (choose from "
      ++ Text.join ", " (choices.map Text.quoted) ++ ")"
  | pathRequired => "the following arguments are required: path"
  | unrecognized words => "unrecognized arguments: " ++ Text.join " " words
  | tooFewWorkers => "--workers must be at least 1"

end EventSchema.CommandLine
