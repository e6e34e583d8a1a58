import EventSchema.CommandLine.Report

/-!
The program: it reads the folders that a command line names into a tree of files, has the schema in
them compiled, and writes what comes of it.
-/

set_option autoImplicit false

namespace EventSchema.Program

/-- The node of what is stored under a name, if it can be read. -/
partial def stored (name : String) : IO (Option Node) := do
  let place := (← IO.currentDir) / name
  match ← place.readDir.toBaseIO with
  | .ok found =>
    let entries ← found.toList.filterMapM fun entry => do
      return (← stored (name ++ "/" ++ entry.fileName)).map fun node =>
        (Text.ofString entry.fileName, node)
    return some (.folder entries)
  | .error _ =>
    match ← (IO.FS.readBinFile place).toBaseIO with
    | .ok content => return some (.file content.toList)
    | .error _ => return none

def addStored (tree : Tree) (path : Path) : IO Tree := do
  let path := tree.resolve path
  match ← stored path.text.toString with
  | some node => return { tree with root := Node.insert node path.names tree.root }
  | none => return tree

/-- The files that a job can read: those of the schema and of the given extensions. -/
def filesOf (directory : List Text) (settings : Settings) : IO Tree := do
  let empty : Tree := { root := Node.insert (.folder []) directory (.folder []), directory }
  let given := settings.extensionPaths
  let paths := given ++ given.map settings.schema.join ++ [settings.schema]
  paths.foldlM addStored empty

def write (report : CommandLine.Report) (seconds : Text) : IO UInt32 := do
  let errors ← IO.getStderr
  for notice in report.notices do
    errors.putStrLn (notice.level.name ++ ": " ++ notice.message seconds).toString
  if !report.complaint.isEmpty then
    errors.putStr (CommandLine.usage ++ report.complaint).toString
  (← IO.getStdout).putStr report.output.toString
  match report.exit with
  | .ok code => return UInt32.ofNat code
  | .error fault =>
    let reason : Text := (fault.message?).getD "the schema holds a value of a kind that does not fit"
    errors.putStrLn reason.toString
    return 1

def secondsText (milliseconds : Nat) : Text :=
  let places := Text.ofNat (milliseconds % 1000)
  Text.ofNat (milliseconds / 1000) ++ "." ++ ⟨List.replicate (3 - places.length) 0x30⟩ ++ places

end EventSchema.Program

open EventSchema EventSchema.Program in
def main (arguments : List String) : IO UInt32 := do
  let environment : CommandLine.Environment := {
    schema := (← IO.getEnv "SCHEMA_DIR").map Text.ofString
    extensions := (← IO.getEnv "SCHEMA_EXTENSION").map Text.ofString }
  let words := arguments.map Text.ofString
  let directory := (Path.ofText (Text.ofString (← IO.currentDir).toString)).names
  match CommandLine.read environment words with
  | .error stop => write stop.report ∅
  | .ok job =>
    let tree ← filesOf directory job.settings
    let start ← IO.monoMsNow
    let report := job.report tree
    let stop ← if report.exit.isOk then IO.monoMsNow else pure start
    write report (secondsText (stop - start))
