import GoTags.Config
import GoTags.Run.Indexing

/-!
# A run

**Input.** Paths, a configuration and a walker of directories.

**Algorithm.** The paths are expanded, the sources indexed, and the index is
written to its destination. Nothing is written unless every source was read.

**Results.** A summary, or why the run failed; the events on the way; and the file
system afterwards.
-/

namespace GoTags

section Defs

/-- Why a run failed. -/
inductive Failure where
  | config (path : Path) (cause : Fault)
  | noSources
  | indexing (cause : Fault)
  | destinationExists (cause : Fault)
  | writing (path : Path) (cause : Fault)
  deriving DecidableEq, Repr

namespace Failure

/-- What failed, in words. -/
def message : Failure → String
  | .config path cause => "Failed to load " ++ Path.display path ++ ": " ++ cause.message
  | .noSources => "No Go source files found"
  | .indexing _ => "Parsing errors experienced, aborting"
  | .destinationExists cause => cause.message
  | .writing path _ => "Error writing file \"" ++ Path.display path ++ "\""

/-- A fault and what it is a consequence of, in words. -/
def chain (cause : Fault) : List String :=
  cause.message :: cause.cause?.toList

/-- What led to a failure, in words, the immediate cause first. -/
def causes : Failure → List String
  | .config _ _ => []
  | .noSources => []
  | .indexing cause => chain cause
  | .destinationExists cause => cause.cause?.toList
  | .writing _ cause => chain cause

/-- Advice that goes with a failure. -/
def hint : Failure → Option String
  | .destinationExists _ =>
      some ("Hint: tago will not overwrite an existing tags file; " ++
        "use -a to append or -o to overwrite.")
  | _ => none

end Failure

/-- What a successful run did. -/
structure Summary where
  report : WriteReport
  files : Nat
  tags : Nat
  dropped : Nat
  deriving DecidableEq, Repr

/-- What a run came to: its result, the events on the way in order, and the file
system afterwards. -/
structure RunResult where
  result : Except Failure Summary
  events : List Event
  fs : FileSystem

/-- What is noted before sources are indexed. -/
def indexingEvent (files : List Path) : Event :=
  ⟨.debug, .command, "Indexing " ++ toString files.length ++ " files"⟩

/-- The failure of a run whose index could not be written. -/
def writeFailure (destination : Path) (cause : Fault) : Failure :=
  match cause with
  | .destinationExists p => .destinationExists (.destinationExists p)
  | other => .writing destination other

/-- Writes an index to the destination of a configuration. -/
def writeIndex (config : OutputConfig) (index : Index) (fs : FileSystem) : RunResult :=
  let destination := config.destination fs
  let before := config.events fs
  match persist index.buffer destination config.policy fs with
  | (.error cause, fs') => ⟨.error (writeFailure destination cause), before, fs'⟩
  | (.ok report, fs') =>
      ⟨.ok ⟨report, index.chunks.length, index.tagCount, index.droppedCount⟩,
        before ++ [report.event], fs'⟩

/-- A run over paths with a configuration. -/
def makeTags (paths : List Path) (config : Config) (fs : FileSystem) (walker : Walker) :
    RunResult :=
  let reader := SourceReader.go fs
  let files := Expand.inputs fs reader paths walker
  let expanding := Expand.events fs paths walker
  if files = [] then ⟨.error .noSources, expanding, fs⟩
  else
    match fs.index reader config.index files with
    | (.error cause, notes) =>
        ⟨.error (.indexing cause), expanding ++ indexingEvent files :: notes, fs⟩
    | (.ok index, notes) =>
        let written := writeIndex config.output index fs
        { written with events := expanding ++ indexingEvent files :: notes ++ written.events }

end Defs

end GoTags
