import GoTags.Command.Program

/-!
# The executable

Takes a snapshot of the part of the disk that a run can look at, runs the command
on it, and writes the files that the run changed.
-/

namespace GoTags
namespace Disk

/-- The text of the path of a place. -/
def pathText (p : Place) : String :=
  Path.display (FileSystem.pathOf p)

/-- The place that an absolute path spells out, without looking at the disk. -/
def placeOf (p : Path) : Place :=
  (Bytes.splitOn Bytes.slash p).filter (· ≠ [])

/-- What kind of entry stands at a place, links not being followed. -/
def kindAt (p : Place) : IO (Option IO.FS.FileType) := do
  try
    return some (← ((← IO.currentDir) / pathText p).symlinkMetadata).type
  catch _ => return none

/-- The content of a file, empty if it cannot be read. -/
def contentAt (p : Place) : IO Bytes := do
  try
    return (← IO.FS.readBinFile (pathText p)).toList
  catch _ => return []

/-- The path that a link leads to in the end. -/
def linkTarget (p : Place) : IO Path := do
  try
    return Utf8.encode (← IO.FS.realPath (pathText p)).toString
  catch _ => return Bytes.ascii "missing"

/-- The names in a directory. -/
def namesIn (p : Place) : IO (List Bytes) := do
  try
    let entries ← (← IO.FS.realPath (pathText p)).readDir
    return entries.toList.map fun e => Utf8.encode e.fileName
  catch _ => return []

/-- Files whose content a run may ask for: sources and rule files. -/
def isOfInterest (name : Bytes) : Bool :=
  Go.supportsPath name || name = Ignore.generalName || name = Ignore.repositoryName ||
    name = Ignore.topName

/-- Adds what stands at a place, links not being followed. -/
def addEntry (whole : Bool) (p : Place) (s : Store) : IO Store := do
  match ← kindAt p with
  | some .dir => return s.put p .dir
  | some .file =>
      let known := match s.at? p with
        | some (.file content) => content
        | _ => []
      return s.put p (.file (← if whole then contentAt p else pure known))
  | some .symlink => return s.put p (.link (← linkTarget p))
  | _ => return s

/-- Adds what is below a directory. -/
partial def addBelow (p : Place) (s : Store) : IO Store := do
  let addName := fun (s : Store) (name : Bytes) => do
    let s ← addEntry (isOfInterest name) (p ++ [name]) s
    if s.at? (p ++ [name]) = some .dir then addBelow (p ++ [name]) s else return s
  (← namesIn p).foldlM addName s

/-- Adds the rule files of a directory. -/
def addRules (p : Place) (s : Store) : IO Store :=
  let top := p ++ [Ignore.topName]
  let info := top ++ [Bytes.ascii "info"]
  [p ++ [Ignore.generalName], p ++ [Ignore.repositoryName], top, info,
    info ++ [Bytes.ascii "exclude"]].foldlM (fun s q => addEntry true q s) s

/-- Adds what steps from a directory lead to, and the directories on the way with
their rule files. Of a directory at the end, `deep` adds what is below it. -/
partial def addSteps (deep : Bool) (here : Place) (steps : List Step) (s : Store) :
    IO Store := do
  match steps with
  | [] =>
      let s ← addRules here s
      if deep then addBelow here s else return s
  | .up :: rest => addSteps deep here.dropLast rest s
  | .name n :: rest =>
      let p := here ++ [n]
      let s ← addEntry true p (← addRules here s)
      match s.at? p with
      | some .dir => addSteps deep p rest s
      | some (.link target) =>
          if (← kindAt (placeOf target)).isSome then addSteps deep [] (target.steps ++ rest) s
          else return s
      | _ => return s
  | _ :: rest => addSteps deep here rest s

/-- Adds what an absolute path leads to. -/
def addPath (deep : Bool) (p : Path) (s : Store) : IO Store :=
  addSteps deep [] p.steps s

/-- Adds the settings of the user, and the rules that they lead to. -/
def addUserRules (here : Path) (env : Program.Environment) (s : Store) : IO Store := do
  let settings := [env.home.join (Bytes.ascii ".gitconfig"),
    (Ignore.configDir env.home env.configHome).join (Bytes.ascii "git/config")]
  let s ← settings.foldlM (fun s p => addPath false (here.join p) s) s
  let fs : FileSystem := ⟨s, some (placeOf here)⟩
  addPath false (here.join (Ignore.userRulesPath fs env.home env.configHome)) s

/-- The file system that a run with options can look at, given the path of the
working directory. -/
def snapshot (here : Path) (env : Program.Environment) (o : Arguments.Options) :
    IO FileSystem := do
  let workDir := some (placeOf here)
  let configPath := o.config.getD (Config.defaultPath env.home)
  let s ← addPath false here .empty
  let s ← addPath false (here.join configPath) s
  let s ← addUserRules here env s
  let s ← o.paths.foldlM (fun s p => addPath true (here.join p) s) s
  match (Program.loadConfig env o ⟨s, workDir⟩).1 with
  | .error _ => return ⟨s, workDir⟩
  | .ok config =>
      let destination := config.output.destination ⟨s, workDir⟩
      return ⟨← addPath false (here.join destination) s, workDir⟩

/-- The environment of the process. -/
def environment : IO Program.Environment := do
  let home := (← IO.getEnv "HOME").getD "."
  let configHome := (← IO.getEnv "XDG_CONFIG_HOME").map Utf8.encode
  return { home := Utf8.encode home, filter := ← IO.getEnv "RUST_LOG", configHome }

/-- Writes files to the disk. -/
def writeFiles (files : List (Place × Bytes)) : IO Unit :=
  files.forM fun (p, content) => IO.FS.writeBinFile (pathText p) ⟨content.toArray⟩

/-- Runs the command on the disk. -/
def run (args : List Bytes) : IO Program.Outcome := do
  let env ← environment
  let here := Utf8.encode (← IO.currentDir).toString
  let fs ←
    match Arguments.read args with
    | .ok o => snapshot here env o
    | .error _ => pure ⟨.empty, some (placeOf here)⟩
  let (outcome, after) := Program.run env args fs
  writeFiles (fs.changedFiles after)
  return outcome

end Disk
end GoTags

/-- The command. -/
def main (args : List String) : IO UInt32 := do
  let outcome ← GoTags.Disk.run (args.map GoTags.Utf8.encode)
  IO.print outcome.stdout
  IO.eprint outcome.stderr
  return UInt32.ofNat outcome.exitCode
