import EventSchema.CommandLine.Word
import EventSchema.Compilation

/-!
Reading a command line.

The first plain word is the path of the schema; the environment may name one, and extensions too, for
when the command line does not. Flags are followed in their order, so one that asks for a text ends
the reading before anything after it can be wrong.
-/

set_option autoImplicit false

namespace EventSchema.CommandLine

structure Environment where
  schema : Option Text := none
  extensions : Option Text := none

/-- What a command line asks for. -/
structure Options where
  ignorePlatform : Bool := false
  extensionPaths : Option (List Path) := none
  duplicates : DuplicatePolicy := .error
  workers : Option Int := none
  /-- The least level of the notices that are shown; none are if there is no such level. -/
  threshold : Option Level := some .info

/-- What ends the reading of a command line early. -/
inductive Stop where
  | help
  | version
  | fault (fault : UsageFault)

/-- The reading of a command line so far. -/
structure Reading where
  options : Options := {}
  path : Option Text := none
  /-- Whether the word before was the path. -/
  atPath : Bool := false
  extras : List Text := []

def policies : List (Text × DuplicatePolicy) := [("error", .error), ("warn", .warn)]

def thresholds : List (Text × Option Level) :=
  [("DEBUG", some .debug), ("INFO", some .info), ("WARNING", some .warning),
    ("ERROR", some .error), ("CRITICAL", none)]

def choose {α : Type} (f : Flag) (choices : Entries α) (given : Text) : Except Stop α :=
  match Entries.get? given choices with
  | some choice => .ok choice
  | none => .error (.fault (.noChoice f given (Entries.keys choices)))

def Options.follow (o : Options) (f : Flag) (value : Text) : Except Stop Options :=
  match f with
  | .help => .error .help
  | .version => .error .version
  | .ignorePlatform => .ok { o with ignorePlatform := true }
  | .extensionsPath =>
    .ok { o with extensionPaths := some (o.extensionPaths.getD [] ++ [Path.ofText value]) }
  | .duplicates => do return { o with duplicates := ← choose f policies value }
  | .logLevel => do return { o with threshold := ← choose f thresholds value }
  | .workers =>
    match value.parseInt? with
    | some n => .ok { o with workers := some n }
    | none => .error (.fault (.notWhole f value))

namespace Reading

/-- A plain word: the path, if there is none yet. -/
def plain (r : Reading) (t : Text) : Reading :=
  match r.path with
  | none => { r with path := some t, atPath := true }
  | some _ => { r with extras := r.extras ++ [t], atPath := false }

/-- The separator, which goes along with the path beside it. -/
def separator (r : Reading) (t : Text) : Reading :=
  if r.path.isNone || r.atPath then { r with atPath := false } else r.plain t

def unknown (r : Reading) (t : Text) : Reading :=
  { r with extras := r.extras ++ [t], atPath := false }

def flags (r : Reading) (flags : List (Flag × Option Text)) : Except Stop Reading := do
  let options ← flags.foldlM (fun o (entry : Flag × Option Text) =>
    Options.follow o entry.1 (entry.2.getD ∅)) r.options
  return { r with options, atPath := false }

def words (r : Reading) : List (Text × Word) → Except Stop Reading
  | [] => .ok r
  | (t, .plain) :: rest => words (r.plain t) rest
  | (t, .separator) :: rest => words (r.separator t) rest
  | (t, .unknown) :: rest => words (r.unknown t) rest
  | (_, .flag f isShort attached) :: rest =>
    match Group.ofAttached f isShort attached with
    | .error fault => .error (.fault fault)
    | .ok group =>
      match group.pending, rest with
      | none, rest => do words (← r.flags group.flags) rest
      | some last, (value, .plain) :: rest => do
        words (← r.flags (group.flags ++ [(last, some value)])) rest
      | some last, _ => .error (.fault (.expectsValue last))

end Reading

/-- What is to be compiled, and which notices are shown. -/
structure Job where
  settings : Settings
  threshold : Option Level

/-- A variable of the environment that says something. -/
def given (setting : Option Text) : Option Text :=
  match setting with
  | some t => if t.isEmpty then none else some t
  | none => none

def listedPaths (setting : Option Text) : List Path :=
  match setting with
  | some t => ((t.split 0x3a).filter fun part => !part.isEmpty).map Path.ofText
  | none => []

def Reading.job (e : Environment) (r : Reading) : Except UsageFault Job :=
  match r.path.or (given e.schema) with
  | none => .error .pathRequired
  | some path =>
    if !r.extras.isEmpty then .error (.unrecognized r.extras)
    else if r.options.workers.any (· < 1) then .error .tooFewWorkers
    else
      .ok {
        threshold := r.options.threshold
        settings := {
          schema := Path.ofText path
          ignorePlatform := r.options.ignorePlatform
          extensionPaths := r.options.extensionPaths.getD (listedPaths e.extensions)
          duplicates := r.options.duplicates } }

/-- The job that a command line asks for. -/
def read (e : Environment) (arguments : List Text) : Except Stop Job :=
  match Word.classifyAll arguments with
  | .error fault => .error (.fault fault)
  | .ok words => do
    let reading ← Reading.words {} words
    match reading.job e with
    | .ok job => return job
    | .error fault => throw (.fault fault)

end EventSchema.CommandLine
