import GoTags.Fault
import GoTags.Files.Store

/-!
# Where a path leads

**Input.** A store, a directory to start from and a path.

**Algorithm.** The steps of the path are taken one after the other from the
directory. A link on the way is replaced by the steps of its target, a bounded
number of times. The last step may lead to a link that is to be kept, or to a
place where nothing stands yet; what that means is up to the caller.

**Results.** A spot, taken or free, or the fault that ended the way.
-/

namespace GoTags

/-- A step of a path. A slash at the end is a step of its own: it asks for a
directory. -/
inductive Step where
  | here
  | up
  | name (bytes : Bytes)
  | slash
  deriving DecidableEq, Repr

/-- The step that a part between slashes stands for. -/
def Step.ofPart? (part : Bytes) : Option Step :=
  if part = [] then none
  else if part = [Bytes.dot] then some .here
  else if part = [Bytes.dot, Bytes.dot] then some .up
  else some (.name part)

/-- The steps of a path. -/
def Path.steps (p : Path) : List Step :=
  (Bytes.splitOn Bytes.slash p).filterMap Step.ofPart? ++
    (if p.getLast? = some Bytes.slash then [.slash] else [])

namespace Lookup

section Defs

/-- What the way is taken for: to find what a path stands for, to find the entry
itself, to find or make a file, or to make a file where nothing stands. -/
inductive Purpose where
  | find
  | entry
  | open
  | make
  deriving DecidableEq, Repr

/-- Whether a file may be made at the end of the way. -/
def Purpose.makesFile : Purpose → Bool
  | .find | .entry => false
  | .open | .make => true

/-- Whether a link at the end of the way is kept as it is. -/
def Purpose.keepsLink : Purpose → Bool
  | .find | .open => false
  | .entry | .make => true

/-- Where a way ends. -/
inductive Spot where
  | taken (place : Place) (entry : Entry)
  | free (place : Place)
  deriving DecidableEq, Repr

/-- The longest name that an entry may have. -/
def nameLimit : Nat := 255

/-- The first length of a path that is too long. -/
def pathLimit : Nat := 4096

/-- The number of links that may be followed on one way. -/
def linkLimit : Nat := 40

/-- The directory that a path starts from. -/
def start (here : Place) (p : Path) : Place :=
  if p.isAbsolute then [] else here

/-- Takes steps from a directory; `follow` goes on from a directory with the
steps that a link stands for. -/
def walk (s : Store) (purpose : Purpose)
    (follow : Place → List Step → Except FileFault Spot) :
    Place → List Step → Except FileFault Spot
  | here, [] => .ok (.taken here .dir)
  | here, .here :: rest => walk s purpose follow here rest
  | here, .slash :: rest => walk s purpose follow here rest
  | here, .up :: rest => walk s purpose follow here.dropLast rest
  | here, .name n :: rest =>
      let place := here ++ [n]
      if purpose.makesFile ∧ rest = [.slash] then .error .isADirectory
      else if nameLimit < n.length then .error .nameTooLong
      else
        match s.at? place with
        | some .dir => walk s purpose follow place rest
        | some (.file content) =>
            if rest = [] then .ok (.taken place (.file content)) else .error .notADirectory
        | some (.link target) =>
            if rest = [] ∧ purpose.keepsLink then .ok (.taken place (.link target))
            else follow (start here target) (target.steps ++ rest)
        | none => if rest = [] then .ok (.free place) else .error .notFound

/-- Takes steps from a directory and follows at most so many links. -/
def walkLinks (s : Store) (purpose : Purpose) :
    Nat → Place → List Step → Except FileFault Spot
  | 0 => walk s purpose fun _ _ => .error .tooManyLinks
  | n + 1 => walk s purpose (walkLinks s purpose n)

end Defs

end Lookup

/-- The spot that a path leads to. A relative path needs a directory to start
from. -/
def Store.spot (s : Store) (here : Option Place) (purpose : Lookup.Purpose) (p : Path) :
    Except FileFault Lookup.Spot :=
  if p.contains 0 then .error .nulInPath
  else if p = [] then .error .notFound
  else if Lookup.pathLimit ≤ p.length then .error .nameTooLong
  else
    match here, p.isAbsolute with
    | none, false => .error .notFound
    | _, _ => Lookup.walkLinks s purpose Lookup.linkLimit (Lookup.start (here.getD []) p) p.steps

end GoTags
