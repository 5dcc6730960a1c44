import GoTags.Tag.Chunk

/-!
# The index of a run

The chunks of a run, in the order of its files, and the bytes of the tags file
that holds them: every chunk is a section that opens with a page break and a
header line.
-/

namespace GoTags

section Defs

/-- The two bytes that open a section: a form feed and a newline. -/
def pageBreak : Bytes := [0x0c, Bytes.newline]

/-- The chunks of a run. -/
structure Index where
  chunks : List Chunk
  deriving DecidableEq, Repr

/-- A chunk as a section of a tags file. -/
def Chunk.section (c : Chunk) : Bytes :=
  pageBreak ++ c.header ++ Bytes.newline :: c.bytes

/-- Chunks as the bytes of a tags file. -/
def assemble (chunks : List Chunk) : Bytes :=
  chunks.flatMap Chunk.section

namespace Index

/-- The number of tags. -/
def tagCount (i : Index) : Nat :=
  i.chunks.foldr (fun c n => c.records.length + n) 0

/-- The number of declarations that were left out. -/
def droppedCount (i : Index) : Nat :=
  i.chunks.foldr (fun c n => c.dropped + n) 0

/-- The bytes of the tags file. -/
def buffer (i : Index) : Bytes :=
  assemble i.chunks

end Index

end Defs

end GoTags
