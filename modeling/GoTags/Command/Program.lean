import GoTags.Command.Arguments
import GoTags.Command.EventFilter
import GoTags.Command.Tags
import GoTags.Ignore.User

/-!
# The command

What the command prints and how it ends, as a function of its arguments, its
environment and the file system.
-/

namespace GoTags
namespace Program

section Defs

/-- What the command takes from its environment: the home directory, which events to
show, and where the user's settings are if not in the home directory. -/
structure Environment where
  home : Path
  filter : Option String := none
  configHome : Option Path := none

/-- How the command ends: its exit code and what it printed. -/
structure Outcome where
  exitCode : Nat
  stdout : String
  stderr : String
  deriving DecidableEq, Repr

/-- The version of the program. -/
def versionText : String := "tago 0.3.0\n"

/-- How the command is used, in one line. -/
def usageLine : String := "Usage: tago [OPTIONS] <PATHS>..."

/-- How the command is used. -/
def helpText : String :=
  "Emacs etags for Go\n\n" ++ usageLine ++ "\n\n" ++
  "Arguments:\n" ++
  "  <PATHS>...  Go source files, or directories to search for them\n\n" ++
  "Options:\n" ++
  "  -d, --dir <DIR>         Directory to save the tags file in " ++
    "(defaults to the current directory)\n" ++
  "  -n, --name <NAME>       Name of the tags file (defaults to TAGS)\n" ++
  "  -a, --append            Append to an existing tags file\n" ++
  "  -o, --overwrite         Replace an existing tags file\n" ++
  "      --strict            Fail instead of skipping a tag whose source line can't be read\n" ++
  "      --etags-delimiters  Separate line text, name and position " ++
    "with the etags DEL/SOH bytes\n" ++
  "  -c, --config <CONFIG>   Config file (defaults to ~/.tago/config.toml when present)\n" ++
  "  -v, --verbose           Log progress to stderr\n" ++
  "  -h, --help              Print help\n" ++
  "  -V, --version           Print version\n"

/-- What is printed about arguments that are wrong. -/
def usageText (cause : Arguments.UsageFault) : String :=
  "error: " ++ cause.message ++ "\n\n" ++ usageLine ++
    "\n\nFor more information, try '--help'.\n"

/-- The lines that show events. -/
def eventText (filter : EventFilter.Filter) (events : List Event) : String :=
  String.join ((events.filter (EventFilter.shows filter)).map fun e => e.render ++ "\n")

/-- A text with every line but the first moved to the right. -/
def indentRest (width : Nat) (text : String) : String :=
  String.ofList (text.toList.flatMap fun c =>
    if c = '\n' then '\n' :: List.replicate width ' ' else [c])

/-- Causes with numbers in front. -/
def numbered : Nat → List String → List String
  | _, [] => []
  | n, cause :: rest =>
      ("    " ++ toString n ++ ": " ++ indentRest 7 cause ++ "\n") :: numbered (n + 1) rest

/-- What led to a failure, below its message. Several causes are numbered. -/
def causesText : List String → String
  | [] => ""
  | [cause] => "\nCaused by:\n    " ++ indentRest 4 cause ++ "\n"
  | causes => "\nCaused by:\n" ++ String.join (numbered 0 causes)

/-- What is printed about a failure. -/
def failureText (f : Failure) : String :=
  (match f.hint with
   | some hint => hint ++ "\n"
   | none => "") ++
    "Error: " ++ f.message ++ "\n" ++ causesText f.causes

/-- What is printed about a successful run. -/
def summaryText (s : Summary) : String :=
  "Wrote " ++ toString s.tags ++ " tags from " ++ toString s.files ++ " files to " ++
    Path.display s.report.path ++ "\n" ++
    if 0 < s.dropped then
      "Warning: " ++ toString s.dropped ++ " tags skipped (source line unreadable)\n"
    else ""

/-- The configuration that options ask for, and the events of loading it. -/
def loadConfig (env : Environment) (o : Arguments.Options) (fs : FileSystem) :
    Except Failure Config × List Event :=
  match o.config with
  | some p =>
      match Config.load fs p with
      | .ok c => (.ok (o.apply c), [])
      | .error cause => (.error (.config p cause), [])
  | none =>
      let (c, events) := Config.loadOrDefault fs env.home
      (.ok (o.apply c), events)

/-- A run with options. -/
def runWith (env : Environment) (o : Arguments.Options) (fs : FileSystem) : RunResult :=
  match loadConfig env o fs with
  | (.error failure, events) => ⟨.error failure, events, fs⟩
  | (.ok config, events) =>
      let user := Ignore.userRules fs env.home env.configHome
      let made := makeTags o.paths config fs (Ignore.walker user)
      { made with events := events ++ made.events }

/-- Which events are shown: what the environment says, if it makes sense, or those
up to a level. -/
def filterFor (env : Environment) (o : Arguments.Options) : EventFilter.Filter :=
  (env.filter.bind EventFilter.read?).getD
    (EventFilter.upTo (if o.has .verbose then .info else .warn))

/-- The command: how it ends, and the file system afterwards. -/
def run (env : Environment) (args : List Bytes) (fs : FileSystem) : Outcome × FileSystem :=
  match Arguments.read args with
  | .error .help => (⟨0, helpText, ""⟩, fs)
  | .error .version => (⟨0, versionText, ""⟩, fs)
  | .error (.fault cause) => (⟨2, "", usageText cause⟩, fs)
  | .ok o =>
      let made := runWith env o fs
      let shown := eventText (filterFor env o) made.events
      match made.result with
      | .ok summary => (⟨0, summaryText summary, shown⟩, made.fs)
      | .error failure => (⟨1, "", shown ++ failureText failure⟩, made.fs)

end Defs

end Program
end GoTags
