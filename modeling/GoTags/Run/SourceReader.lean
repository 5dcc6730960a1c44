import GoTags.Files.System
import GoTags.Go.Source

/-!
# Readers of sources

What indexing asks of a language: the tree of the source at a path, and whether
files with an extension are sources at all.
-/

namespace GoTags

/-- Something that reads sources into trees. -/
structure SourceReader where
  /-- The tree of the source at a path. -/
  parse : Path → Except Fault SourceTree
  /-- Whether files with an extension are sources. -/
  supports : String → Bool

namespace SourceReader

section Defs

/-- Whether a path names a source: its extension is text and supported. -/
def supportsPath (r : SourceReader) (p : Path) : Bool :=
  (Path.extensionText? p).any r.supports

/-- The reader of Go sources. Reading the file comes before everything else. -/
def go (fs : FileSystem) : SourceReader where
  parse p :=
    match fs.read p with
    | .error cause => .error (.parse (Path.display p) (.unreadable cause))
    | .ok content => Go.parseSource (Path.display p) content
  supports := Go.supportsExtension

end Defs

end SourceReader
end GoTags
