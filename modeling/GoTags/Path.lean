import GoTags.Text.Utf8

/-!
# Paths

A path is a byte string whose parts are separated by slashes. Two paths are the
same when their components are: repeated slashes, a `.` in the middle and a
trailing slash do not count, a leading `.` does, and `..` is kept as it stands.
-/

namespace GoTags

/-- A path, as it was spelt. -/
abbrev Path := Bytes

namespace Path

section Defs

/-- A component of a path. -/
inductive Component where
  | root
  | here
  | up
  | name (bytes : Bytes)
  deriving DecidableEq, Repr

/-- The component that a part between slashes stands for; none for an empty part
and for a dot, which only counts in front. -/
def component? (part : Bytes) : Option Component :=
  if part = [] ∨ part = [Bytes.dot] then none
  else if part = [Bytes.dot, Bytes.dot] then some .up
  else some (.name part)

/-- Whether a path starts at the root. -/
def isAbsolute : Path → Bool
  | b :: _ => b = Bytes.slash
  | [] => false

/-- The components of a path. -/
def components (p : Path) : List Component :=
  let parts := Bytes.splitOn Bytes.slash p
  let front :=
    if isAbsolute p then [Component.root]
    else if parts.head? = some [Bytes.dot] then [Component.here]
    else []
  front ++ parts.filterMap component?

/-- Two spellings of one path. -/
def same (p q : Path) : Bool :=
  components p = components q

/-- The name of the last component, if it is a name. -/
def fileName? (p : Path) : Option Bytes :=
  match (components p).getLast? with
  | some (.name n) => some n
  | _ => none

/-- What follows the last dot of the file name; a dot in front does not start an
extension. -/
def extension? (p : Path) : Option Bytes :=
  match fileName? p with
  | none => none
  | some n =>
      match Bytes.cutLast Bytes.dot n with
      | some ([], _) => none
      | some (_ :: _, ext) => some ext
      | none => none

/-- The extension of a path, if it is text. -/
def extensionText? (p : Path) : Option String :=
  (extension? p).bind Utf8.decode?

/-- A path taken relative to another. An absolute path stands for itself. -/
def join (base p : Path) : Path :=
  if isAbsolute p then p
  else if base = [] ∨ base.getLast? = some Bytes.slash then base ++ p
  else base ++ Bytes.slash :: p

/-- The path as text. -/
def display (p : Path) : String :=
  Utf8.lossy p

end Defs

end Path
end GoTags
