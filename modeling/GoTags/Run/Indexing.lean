import GoTags.Run.Expand
import GoTags.Tag.FileLines
import GoTags.Tag.Index

/-!
# Indexing

**Input.** The sources of a run, in order.

**Algorithm.** One source at a time: its tree, its declarations, its chunk. What
the source of lines remembers is let go of after each.

**Results.** One chunk for each source, in order, or the first fault; and the
notes that were taken on the way.
-/

namespace GoTags

section Defs

/-- What is noted about a source that is done. -/
def Chunk.doneEvent (c : Chunk) (declarations : Nat) : Event :=
  ⟨.debug, .indexer, c.fileName ++ ": " ++ toString declarations ++ " declarations, " ++
    toString c.records.length ++ " tags, " ++ toString c.bytes.length ++ " bytes"⟩

/-- What is noted about a run that is done. -/
def Index.doneEvent (i : Index) : Event :=
  ⟨.info, .indexer, "Indexed " ++ toString i.chunks.length ++ " files: " ++
    toString i.tagCount ++ " tags, " ++ toString i.droppedCount ++ " dropped"⟩

/-- The chunk of one source. -/
def indexOne {σ : Type} (reader : SourceReader) (source : LineSource σ) (config : IndexConfig)
    (p : Path) (s : σ) : Except Fault Chunk × σ :=
  match reader.parse p with
  | .error fault => (.error fault, s)
  | .ok tree =>
      let decls := tree.declarations
      match Chunk.build source config tree.path decls s with
      | (.error fault, s') => (.error fault, s')
      | (.ok chunk, s') =>
          (.ok chunk, source.note (chunk.doneEvent decls.length) (source.forget s'))

/-- The chunks of sources, in order. -/
def indexAll {σ : Type} (reader : SourceReader) (source : LineSource σ) (config : IndexConfig) :
    List Path → σ → Except Fault (List Chunk) × σ
  | [], s => (.ok [], s)
  | p :: ps, s =>
      match indexOne reader source config p s with
      | (.error fault, s') => (.error fault, s')
      | (.ok chunk, s') =>
          let (rest, s'') := indexAll reader source config ps s'
          (rest.map (chunk :: ·), s'')

/-- The index of sources. -/
def indexFiles {σ : Type} (reader : SourceReader) (source : LineSource σ) (config : IndexConfig)
    (ps : List Path) (s : σ) : Except Fault Index × σ :=
  match indexAll reader source config ps s with
  | (.error fault, s') => (.error fault, s')
  | (.ok chunks, s') =>
      let index : Index := ⟨chunks⟩
      (.ok index, source.note index.doneEvent s')

/-- The index of stored sources, and the notes taken, in order. -/
def FileSystem.index (fs : FileSystem) (reader : SourceReader) (config : IndexConfig)
    (ps : List Path) : Except Fault Index × List Event :=
  let (result, cache) := indexFiles reader (FileLines.cached fs) config ps {}
  (result, cache.notes.reverse)

end Defs

end GoTags
