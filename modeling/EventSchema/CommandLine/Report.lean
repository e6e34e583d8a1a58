import EventSchema.CommandLine.Options

/-!
What the program does with a command line: the texts it writes, the notices it shows, and its exit
code.
-/

set_option autoImplicit false

namespace EventSchema.CommandLine

def programName : Text := "ocsf-schema-engine"

def programVersion : Text := "0.1.0"

def usage : Text := Text.concat
  ["usage: ", programName, " [-h] [-i] [-e PATH] [--duplicates \x7berror,warn\x7d]\n",
    "                          [--workers N]\n",
    "                          [--log-level \x7bDEBUG,INFO,WARNING,ERROR,CRITICAL\x7d]\n",
    "                          [-v]\n",
    "                          path\n"]

def help : Text := Text.concat
  [usage, "\n",
    "Open Cybersecurity Schema Framework Schema Engine, version ", programVersion, ". Resolve\n",
    "an OCSF schema directory structure, including extensions, into a single JSON\n",
    "object written to standard output. Logs are written to standard error.\n\n",
    "positional arguments:\n",
    "  path                  path to an OCSF schema directory; default: SCHEMA_DIR\n",
    "                        environment variable\n\n",
    "options:\n",
    "  -h, --help            show this help message and exit\n",
    "  -i, --ignore-platform-extensions\n",
    "                        ignore platform extensions (if any); these are in an\n",
    "                        extensions directory under the schema directory;\n",
    "                        default: False\n",
    "  -e PATH, --extensions-path PATH\n",
    "                        optional path to a directory containing one or more\n",
    "                        OCSF schema extensions; can be repeated; default:\n",
    "                        SCHEMA_EXTENSION environment variable (paths separated\n",
    "                        by ':')\n",
    "  --duplicates \x7berror,warn\x7d\n",
    "                        what to do when two files define the same name: fail,\n",
    "                        or warn and use the later file; default: error\n",
    "  --workers N           number of threads reading schema directories; any\n",
    "                        positive number gives the same result\n",
    "  --log-level \x7bDEBUG,INFO,WARNING,ERROR,CRITICAL\x7d\n",
    "                        set log level; logs are written to standard error;\n",
    "                        default: INFO\n",
    "  -v, --version         show program's version number and exit\n"]

/-- What a run of the program comes to. -/
structure Report where
  exit : Except Fault Nat
  output : Text := ∅
  complaint : Text := ∅
  notices : List Notice := []

def shows (threshold : Option Level) (n : Notice) : Bool :=
  match threshold with
  | some level => level.rank ≤ n.level.rank
  | none => false

def Stop.report : Stop → Report
  | help => { exit := .ok 0, output := CommandLine.help }
  | version => { exit := .ok 0, output := programName ++ " " ++ programVersion ++ "\n" }
  | fault f => { exit := .ok 2, complaint := programName ++ ": error: " ++ f.message ++ "\n" }

def Job.report (job : Job) (tree : Tree) : Report :=
  let compiled : Act Fields := do
    let graph ← job.settings.compile tree
    note .compilationTook
    (graph.toFields : Except Fault Fields)
  match compiled.outcome {} with
  | (outcome, run) => {
    exit := outcome.map fun _ => 0
    notices := run.notices.filter (shows job.threshold)
    output := match outcome with
      | .ok fields => Json.write .line (.record fields) ++ "\n"
      | .error _ => ∅ }

/-- The report of a command line in an environment with a tree of files. -/
def report (e : Environment) (arguments : List Text) (tree : Tree) : Report :=
  match read e arguments with
  | .ok job => job.report tree
  | .error stop => stop.report

end EventSchema.CommandLine
