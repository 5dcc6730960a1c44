import GoTags.Event
import GoTags.Ignore.Walk
import GoTags.Run.SourceReader

/-!
# From inputs to sources

**Input.** Paths as they were given, and a walker.

**Algorithm.** A path that does not lead to a directory is kept as it is. A
directory is walked, and of what the walker comes to, the files are kept whose
paths are those of sources.

**Results.** The sources to index, in order.
-/

namespace GoTags
namespace Expand

section Defs

/-- What a walk has come to. -/
def visited (found : List (Except String Visit)) : List Visit :=
  found.filterMap Except.toOption

/-- The sources among what a walk has come to. -/
def sources (reader : SourceReader) (found : List (Except String Visit)) : List Path :=
  ((visited found).filter fun v => v.isFile && reader.supportsPath v.path).map Visit.path

/-- The sources of one input. -/
def input (fs : FileSystem) (reader : SourceReader) (walker : Walker) (p : Path) : List Path :=
  if fs.isDir p then sources reader (walker fs p) else [p]

/-- The sources of inputs, in order. The walker is one without rules of a user if
none is given. -/
def inputs (fs : FileSystem) (reader : SourceReader) (ps : List Path)
    (walker : Walker := Ignore.walker {}) : List Path :=
  ps.flatMap (input fs reader walker)

/-- What is noted about one thing that a walk has come to. -/
def note? : Except String Visit → Option Event
  | .ok _ => none
  | .error issue => some ⟨.warn, .indexer, "Walk error: " ++ issue⟩

/-- What is noted while inputs are expanded. -/
def events (fs : FileSystem) (ps : List Path) (walker : Walker) : List Event :=
  ps.flatMap fun p => if fs.isDir p then (walker fs p).filterMap note? else []

end Defs

end Expand
end GoTags
