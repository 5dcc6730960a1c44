import GoTags.Ignore.Scope

/-!
# Walking a directory

**Input.** The path of a directory.

**Algorithm.** The entries of the directory in the order of their names, without
those that rules pass over, and right after each directory among them what is below
it. Links are not followed below the directory that was given.

**Results.** What is come to on the way, in order, and what went wrong. Every path
starts with the one that was given. The name of the standard input is not taken for
that of a directory.
-/

namespace GoTags

/-- What a walk comes to: a path, and whether a file stands there. -/
structure Visit where
  path : Path
  isFile : Bool
  deriving DecidableEq, Repr

/-- A way to walk the directory that a path leads to: what it comes to, in order, and
among that, in words, what went wrong. -/
abbrev Walker := FileSystem → Path → List (Except String Visit)

namespace Ignore

section Defs

/-- What is come to below a directory, given its place, the path that led to it and
the rules of the directories above. `fuel` bounds the depth. -/
def walk (user : UserRules) (fs : FileSystem) :
    Nat → List Level → Place → Path → List Visit
  | 0, _, _, _ => []
  | fuel + 1, above, dir, shown =>
      let levels := Level.ofDir fs dir :: above
      (fs.store.children dir).flatMap fun (name, entry) =>
        if passedOver user levels dir shown name entry.isDir then []
        else
          let path := shown.join name
          ⟨path, entry.isFile⟩ ::
            if entry.isDir then walk user fs fuel levels (dir ++ [name]) path else []

/-- The levels of the directories above a place, the deepest first. -/
def levelsAbove (fs : FileSystem) (place : Place) : List Level :=
  (levelsTo fs place).drop 1

/-- What is come to in a directory: the directory itself and what is below it. No way
down is longer than the deepest place. -/
def visits (user : UserRules) (fs : FileSystem) (dir : Place) (shown : Path) : List Visit :=
  ⟨shown, false⟩ :: walk user fs (fs.store.depth + 1) (levelsAbove fs dir) dir shown

/-- What is wrong with rules above a directory, in words. -/
def issues (fs : FileSystem) (dir : Place) : List String :=
  let files := (levelsAbove fs dir).reverse.flatMap fun l =>
    [l.general, l.repository, l.exclusive]
  match files.flatMap RuleFile.complaints with
  | [] => []
  | complaints => [String.intercalate "\n" complaints]

/-- The path that stands for the standard input. A directory of that name is not
walked. -/
def standardInput : Path := Bytes.ascii "-"

/-- What is come to instead of a directory whose name stands for the standard input. -/
def standardInputVisit : Visit :=
  ⟨Bytes.ascii "<stdin>", false⟩

/-- The walker that minds rules. -/
def walker (user : UserRules) : Walker := fun fs p =>
  if Path.same p standardInput then [.ok standardInputVisit]
  else
    match fs.dirAt? p with
    | some dir => (issues fs dir).map .error ++ (visits user fs dir p).map .ok
    | none => []

end Defs

end Ignore
end GoTags
