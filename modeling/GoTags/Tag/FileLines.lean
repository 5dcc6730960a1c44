import GoTags.Files.System
import GoTags.Tag.LineSource
import GoTags.Text.Lines

/-!
# Lines of stored files

Two sources of lines. One walks from the start of the file to the line on every
call. The other keeps the lines of the file that was asked for last, and lets go
of them before it reads another one.
-/

namespace GoTags
namespace FileLines

section Defs

/-- The fault of a line that could not be had. -/
def fault (path : Path) (line : Nat) (cause : LineFault) : Fault :=
  .line (Path.display path) line cause

/-- The bytes of a line as text. -/
def decode (path : Path) (line : Nat) (bytes : Bytes) : Except Fault String :=
  match Utf8.defect? bytes with
  | none => .ok (Utf8.lossy bytes)
  | some defect => .error (fault path line (.undecodable defect))

/-- The text of a line, found by walking from the start of the file. -/
def scan (fs : FileSystem) (path : Path) (line : Nat) : Except Fault String :=
  match line with
  | 0 => .error (fault path 0 .beforeFirst)
  | above + 1 =>
      match fs.read path with
      | .error cause => .error (fault path line (.unreadable cause))
      | .ok content =>
          match Lines.walk above 0 content with
          | .onlyHas count => .error (fault path line (.pastEnd count))
          | .line bytes => decode path line bytes

/-- The lines that are held, and the file that they are from. -/
abbrev Held := Option (Path × List Bytes)

/-- The held lines, if they are those of a file. -/
def heldFor (path : Path) : Held → Option (List Bytes)
  | some (current, lines) => if Path.same current path then some lines else none
  | none => none

/-- A line among lines that are held. -/
def pick (path : Path) (line : Nat) (lines : List Bytes) : Except Fault String :=
  match lines[line - 1]? with
  | some bytes => decode path line bytes
  | none => .error (fault path line (.pastEnd lines.length))

/-- What is noted when the lines of a file are read in. -/
def loadEvent (path : Path) (lines : List Bytes) : Event :=
  ⟨.trace, .lines, "Cached " ++ toString lines.length ++ " lines of " ++ Path.display path⟩

/-- A cache of lines, and the notes taken so far, the latest first. -/
structure Cache where
  held : Held := none
  notes : List Event := []
  deriving DecidableEq, Repr

namespace Cache

/-- The cache after a note. -/
def note (e : Event) (c : Cache) : Cache :=
  { c with notes := e :: c.notes }

/-- The cache without lines. -/
def clear (c : Cache) : Cache :=
  { c with held := none }

/-- The cache with the lines of a file. -/
def load (path : Path) (lines : List Bytes) (c : Cache) : Cache :=
  note (loadEvent path lines) { c with held := some (path, lines) }

/-- The text of a line, from the held lines if they are those of the file. -/
def resolve (fs : FileSystem) (path : Path) (line : Nat) (c : Cache) :
    Except Fault String × Cache :=
  if line = 0 then (.error (fault path 0 .beforeFirst), c)
  else
    match heldFor path c.held with
    | some lines => (pick path line lines, c)
    | none =>
        match fs.read path with
        | .error cause => (.error (fault path line (.unreadable cause)), c.clear)
        | .ok content =>
            let lines := Lines.all content
            (pick path line lines, c.load path lines)

end Cache

/-- The source that walks to every line. -/
def scanning (fs : FileSystem) : LineSource Unit where
  resolve path line s := (scan fs path line, s)
  forget := id
  note _ := id

/-- The source that keeps the lines of one file. -/
def cached (fs : FileSystem) : LineSource Cache where
  resolve := Cache.resolve fs
  forget := Cache.clear
  note := Cache.note

end Defs

end FileLines
end GoTags
