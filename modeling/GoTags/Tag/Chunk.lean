import GoTags.Tag.LineSource
import GoTags.Tag.Record

/-!
# Chunks

**Input.** The name of a source file and its declarations.

**Algorithm.** The line of each declaration is asked for, in order. A line that
cannot be had either costs its declaration the tag or ends the building, as the
policy says.

**Results.** A chunk: the records in order, their bytes one after the other, and
the number of declarations that were left out.
-/

namespace GoTags

section Defs

/-- What to do about a line that cannot be had. -/
inductive LineErrors where
  | skip
  | abort
  deriving DecidableEq, Repr

/-- How records are produced. -/
structure IndexConfig where
  lineErrors : LineErrors := .skip
  layout : Layout := .legacy
  deriving DecidableEq, Repr

/-- The tags of one source file. -/
structure Chunk where
  fileName : String
  records : List Record
  bytes : Bytes
  dropped : Nat
  deriving DecidableEq, Repr

namespace Chunk

/-- The chunk of a file without tags. -/
def empty (fileName : String) : Chunk :=
  ⟨fileName, [], [], 0⟩

/-- The chunk with one more record in front. -/
def cons (layout : Layout) (r : Record) (c : Chunk) : Chunk :=
  { c with records := r :: c.records, bytes := r.bytes layout ++ c.bytes }

/-- The chunk with one more declaration left out. -/
def drop (c : Chunk) : Chunk :=
  { c with dropped := c.dropped + 1 }

/-- The header of a chunk: file name, comma, number of bytes. -/
def header (c : Chunk) : Bytes :=
  Utf8.encode c.fileName ++ Bytes.comma :: Decimal.write c.bytes.length

/-- What is noted about a declaration that is left out. -/
def skipEvent (d : Declaration) (f : Fault) : Event :=
  ⟨.warn, .chunk, "Skipping tag " ++ d.name ++ ": " ++ f.message⟩

/-- Builds the chunk of a file from its declarations. -/
def build {σ : Type} (source : LineSource σ) (config : IndexConfig) (fileName : String) :
    List Declaration → σ → Except Fault Chunk × σ
  | [], s => (.ok (empty fileName), s)
  | d :: ds, s =>
      match source.resolve d.file d.line s with
      | (.ok text, s') =>
          let (rest, s'') := build source config fileName ds s'
          (rest.map (cons config.layout (.ofDeclaration d text)), s'')
      | (.error f, s') =>
          match config.lineErrors with
          | .abort => (.error f, s')
          | .skip =>
              let (rest, s'') := build source config fileName ds (source.note (skipEvent d f) s')
              (rest.map drop, s'')

end Chunk

end Defs

end GoTags
