import GoTags.Go.Items

/-!
# Go sources

A source is taken for Go by the extension of its path. Its bytes are then read
into top-level items.
-/

namespace GoTags
namespace Go

section Defs

/-- Whether an extension is that of Go sources. -/
def supportsExtension (ext : String) : Bool :=
  ext == "go"

/-- Whether a path names a Go source: its extension is text and that of one. -/
def supportsPath (path : Path) : Bool :=
  (Path.extensionText? path).any supportsExtension

/-- The tree of a source, given the path as text and the content. -/
def parseSource (path : String) (content : Bytes) : Except Fault SourceTree :=
  if supportsPath (Utf8.encode path) then
    match items content with
    | .ok found => .ok ⟨path, found⟩
    | .error cause => .error (.parse path cause)
  else .error (.parse path .unsupportedType)

end Defs

end Go
end GoTags
