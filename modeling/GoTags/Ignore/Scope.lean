import GoTags.Files.System
import GoTags.Ignore.Rule

/-!
# Which rules are for a path

Every directory may hold rule files of three kinds: general ones, those of a
repository, and the private ones of a repository. A directory with an entry
`.git` is the top of a repository. The rules of a repository count only inside
one, and only those from its top on down; general rules count everywhere. The
user may have rules for all repositories.

**Results.** The verdict on an entry. General rules go before those of the
repository, those before the private ones, and the user's come last; among rules
of one kind, those of the deepest directory decide, and in one file the last that
fits.
-/

namespace GoTags
namespace Ignore

section Defs

/-- The rules of a directory. -/
structure Level where
  place : Place
  isTop : Bool
  general : RuleFile
  repository : RuleFile
  exclusive : RuleFile

/-- The name of the general rule file. -/
def generalName : Bytes := Bytes.ascii ".ignore"

/-- The name of the rule file of a repository. -/
def repositoryName : Bytes := Bytes.ascii ".gitignore"

/-- The name of the entry at the top of a repository. -/
def topName : Bytes := Bytes.ascii ".git"

/-- Where the private rules of a repository are kept. -/
def exclusiveName : Path := Bytes.ascii "info/exclude"

/-- The rules of a file, none if it cannot be read. -/
def rulesAt (fs : FileSystem) (p : Path) : RuleFile :=
  match fs.read p with
  | .ok content => readFile p content
  | .error _ => {}

/-- The first line of a file, if it is text. -/
def firstLine? (fs : FileSystem) (p : Path) : Option Bytes :=
  match fs.read p with
  | .ok content =>
      match Lines.next? content with
      | some (line, _) => (Utf8.decode? (withoutReturn line)).map fun _ => withoutReturn line
      | none => none
  | .error _ => none

/-- The directory that is shared by the working trees of a repository, if the
entry at the top is a file that tells where to look for it. -/
def sharedDir? (fs : FileSystem) (top : Path) : Option Path := do
  let line ← firstLine? fs top
  let own ← Bytes.stripFront (Bytes.ascii "gitdir: ") line
  let shared ← firstLine? fs (Path.join own (Bytes.ascii "commondir"))
  if shared.head? = some Bytes.dot then some (Path.join own shared) else some shared

/-- The directory in which a repository keeps its private rules. -/
def privateDir? (fs : FileSystem) (top : Path) : Option Path :=
  match fs.find top with
  | .ok (_, .file _) => sharedDir? fs top
  | _ => some top

/-- The rules of a directory. -/
def Level.ofDir (fs : FileSystem) (dir : Place) : Level :=
  let inDir := fun name => FileSystem.pathOf (dir ++ [name])
  { place := dir
    isTop := fs.pathExists (inDir topName)
    general := rulesAt fs (inDir generalName)
    repository := rulesAt fs (inDir repositoryName)
    exclusive :=
      match privateDir? fs (inDir topName) with
      | some own => rulesAt fs (Path.join own exclusiveName)
      | none => {} }

/-- The levels of a place's directories, the deepest first. -/
def levelsTo (fs : FileSystem) (place : Place) : List Level :=
  (place.fronts.map (Level.ofDir fs)).reverse

/-- Levels up to the first top of a repository; none if there is none. -/
def withinRepository (levels : List Level) : List Level :=
  match levels with
  | [] => []
  | l :: rest =>
      if l.isTop then [l]
      else
        match withinRepository rest with
        | [] => []
        | inner => l :: inner

/-- The path of a place from a directory on. -/
def pathFrom (dir place : Place) : Path :=
  Bytes.joinWith Bytes.slash (place.drop dir.length)

/-- The verdict of one kind of rules, the deepest level first. -/
def kindVerdict? (kind : Level → RuleFile) (levels : List Level) (place : Place)
    (isDir : Bool) : Option Verdict :=
  levels.findSome? fun l => verdict? (kind l).rules (pathFrom l.place place) isDir

/-- The rules that a user has for all repositories, and the path of the directory
that they start from. -/
structure UserRules where
  root : Path := []
  rules : List Rule := []

/-- A path without the working directory's name in front. -/
def withoutHere (p : Path) : Path :=
  (Bytes.stripFront (Bytes.ascii "./") p).getD p

/-- A path as the rules of a user see it: without the path that they start from,
which is compared byte by byte. A name alone is not touched. -/
def UserRules.pathOf (user : UserRules) (path : Path) : Path :=
  -- the working directory's name is taken off twice, and no more often
  let path := withoutHere (withoutHere path)
  if path.contains Bytes.slash then
    match Bytes.stripFront user.root path with
    | some rest => (Bytes.stripFront [Bytes.slash] rest).getD rest
    | none => path
  else path

/-- The verdict of a user's rules on the entry that a path leads to. Outside
repositories there is none. -/
def UserRules.verdict? (user : UserRules) (inside : List Level) (path : Path) (isDir : Bool) :
    Option Verdict :=
  if inside.isEmpty then none else Ignore.verdict? user.rules (user.pathOf path) isDir

/-- The verdict of all rules on an entry, given its place and the path that leads
to it. -/
def judge? (user : UserRules) (levels : List Level) (place : Place) (path : Path)
    (isDir : Bool) : Option Verdict :=
  let inside := withinRepository levels
  (kindVerdict? Level.general levels place isDir).or
    ((kindVerdict? Level.repository inside place isDir).or
      ((kindVerdict? Level.exclusive inside place isDir).or
        (user.verdict? inside path isDir)))

/-- Whether a name is hidden. -/
def isHidden (name : Bytes) : Bool :=
  name.head? = some Bytes.dot

/-- Whether an entry of a directory is passed over: it is ignored, or it is hidden
and no rule lets it through. -/
def passedOver (user : UserRules) (levels : List Level) (dir : Place) (shown : Path)
    (name : Bytes) (isDir : Bool) : Bool :=
  match judge? user levels (dir ++ [name]) (shown.join name) isDir with
  | some .ignore => true
  | some .letThrough => false
  | none => isHidden name

end Defs

end Ignore
end GoTags
