import GoTags.Command.Tags
import GoTags.Proofs.Indexing
import GoTags.Proofs.Writing

/-!
# All or nothing

A run that fails leaves the files as they were, whatever it fails on. A run that
succeeds has read every source, and writes one file.

**Input.** Paths, a configuration, a file system and a walker of directories.

**Results.**
* `chunkOf_eq_error_iff`: what makes the indexing of a source fail.
* `makeTags_eq`: a run step by step.
* `makeTags_all_or_nothing`: what a run leaves behind, by how it ends.
-/

namespace GoTags

section Sources

variable {fs : FileSystem} {reader : SourceReader} {config : IndexConfig}

/-- What makes the indexing of a source fail. -/
theorem FileSystem.chunkOf_eq_error_iff {p : Path} :
    (∃ fault, fs.chunkOf reader config p = .error fault) ↔
      (∃ fault, reader.parse p = .error fault) ∨
        (config.lineErrors = .abort ∧ ∃ tree, reader.parse p = .ok tree ∧
          ∃ d ∈ tree.declarations, ∃ fault, FileLines.scan fs d.file d.line = .error fault) := by
  unfold chunkOf
  cases reader.parse p with
  | error fault => simp
  | ok tree => simp [FileLines.build_scanning_eq_error_iff]

theorem assemble_ne_nil {chunks : List Chunk} (h : chunks ≠ []) : assemble chunks ≠ [] := by
  cases chunks with
  | nil => exact absurd rfl h
  | cons c chunks => simp [assemble, Chunk.section, pageBreak]

end Sources

section Runs

/-- The sources of a run. -/
def runFiles (paths : List Path) (fs : FileSystem) (walker : Walker) : List Path :=
  Expand.inputs fs (SourceReader.go fs) paths walker

/-- What a run can fail on. -/
inductive Fails (paths : List Path) (config : Config) (fs : FileSystem) (walker : Walker) : Prop
  | noSources (h : runFiles paths fs walker = [])
  | unparsed {p : Path} {fault : Fault} (hp : p ∈ runFiles paths fs walker)
      (h : (SourceReader.go fs).parse p = .error fault)
  | unresolved {p : Path} {tree : SourceTree} {d : Declaration} {fault : Fault}
      (hconfig : config.index.lineErrors = .abort) (hp : p ∈ runFiles paths fs walker)
      (htree : (SourceReader.go fs).parse p = .ok tree) (hd : d ∈ tree.declarations)
      (h : FileLines.scan fs d.file d.line = .error fault)
  | unopened {cause : FileFault}
      (h : fs.openFile config.output.policy (config.output.destination fs) = .error cause)

/-- A chunk is that of the source at a path: it is named like the source and made
from its declarations and the lines that they stand on. -/
def IsChunkOf (config : Config) (fs : FileSystem) (p : Path) (chunk : Chunk) : Prop :=
  ∃ tree, (SourceReader.go fs).parse p = .ok tree ∧ chunk.fileName = tree.path ∧
    (Chunk.build (FileLines.scanning fs) config.index tree.path tree.declarations ()).1 =
      .ok chunk

/-- What a run has done that succeeded: `chunks` are those of its sources, and the
destination led to `place`, where `old` stood before. -/
structure Writes (paths : List Path) (config : Config) (fs : FileSystem) (walker : Walker)
    (chunks : List Chunk) (place : Place) (old : Bytes) (run : RunResult) (summary : Summary) :
    Prop where
  indexed : List.Forall₂ (IsChunkOf config fs) (runFiles paths fs walker) chunks
  buffer_ne_nil : assemble chunks ≠ []
  opened : fs.openFile config.output.policy (config.output.destination fs) = .ok (place, old)
  workDir : run.fs.workDir = fs.workDir
  written : run.fs.store.at? place =
    some (.file (config.output.policy.result old (assemble chunks)))
  elsewhere : ∀ q, q ≠ place → run.fs.store.at? q = fs.store.at? q
  bytesWritten : summary.report.bytesWritten = (assemble chunks).length
  files : summary.files = chunks.length

variable (paths : List Path) (config : Config) (fs : FileSystem) (walker : Walker)

/-- A run step by step: its sources, their chunks, and the opening of the
destination. -/
theorem makeTags_eq :
    ((makeTags paths config fs walker).result, (makeTags paths config fs walker).fs) =
      if runFiles paths fs walker = [] then (.error .noSources, fs)
      else
        match (runFiles paths fs walker).mapM (fs.chunkOf (SourceReader.go fs) config.index) with
        | .error cause => (.error (.indexing cause), fs)
        | .ok chunks =>
            let destination := config.output.destination fs
            let policy := config.output.policy
            match fs.openFile policy destination with
            | .error cause => (.error (writeFailure destination (policy.fault destination cause)), fs)
            | .ok (place, old) =>
                let report : WriteReport :=
                  ⟨destination, policy, (assemble chunks).length, !fs.pathExists destination⟩
                (.ok ⟨report, chunks.length, Index.tagCount ⟨chunks⟩, Index.droppedCount ⟨chunks⟩⟩,
                  fs.put place (.file (policy.result old (assemble chunks)))) := by
  have hindex := fs.index_eq (SourceReader.go fs) config.index (runFiles paths fs walker)
  unfold makeTags
  unfold runFiles at hindex ⊢
  dsimp only
  split
  · rfl
  · generalize fs.index (SourceReader.go fs) config.index
      (Expand.inputs fs (SourceReader.go fs) paths walker) = indexed at hindex
    obtain ⟨result, notes⟩ := indexed
    dsimp only at hindex
    subst hindex
    cases (Expand.inputs fs (SourceReader.go fs) paths walker).mapM
        (fs.chunkOf (SourceReader.go fs) config.index) with
    | error cause => rfl
    | ok chunks =>
        simp only [Except.map, writeIndex, persist_eq]
        cases hopen : fs.openFile config.output.policy (config.output.destination fs) with
        | error cause => rfl
        | ok opened => rfl

/-- A source fails to be indexed on what the run can fail on. -/
theorem fails_of_chunkOf {p : Path} {cause : Fault} (hp : p ∈ runFiles paths fs walker)
    (h : fs.chunkOf (SourceReader.go fs) config.index p = .error cause) :
    Fails paths config fs walker := by
  rcases FileSystem.chunkOf_eq_error_iff.mp ⟨cause, h⟩ with
    ⟨fault, h⟩ | ⟨habort, tree, htree, d, hd, fault, h⟩
  · exact .unparsed hp h
  · exact .unresolved habort hp htree hd h

/-- A run that goes through cannot fail on anything. -/
theorem not_fails {chunks : List Chunk} {opened : Place × Bytes}
    (hfiles : runFiles paths fs walker ≠ [])
    (hchunks : (runFiles paths fs walker).mapM (fs.chunkOf (SourceReader.go fs) config.index) = .ok chunks)
    (hopen : fs.openFile config.output.policy (config.output.destination fs) = .ok opened) :
    ¬Fails paths config fs walker := by
  have hindexed : ∀ p ∈ runFiles paths fs walker,
      ¬∃ cause, fs.chunkOf (SourceReader.go fs) config.index p = .error cause := by
    intro p hp h
    obtain ⟨fault, hfault⟩ := mapM_eq_error_iff.mpr ⟨p, hp, h⟩
    rw [hchunks] at hfault
    cases hfault
  intro hfails
  cases hfails with
  | noSources h => exact hfiles h
  | unparsed hp h =>
      exact hindexed _ hp (FileSystem.chunkOf_eq_error_iff.mpr (Or.inl ⟨_, h⟩))
  | unresolved habort hp htree hd h =>
      exact hindexed _ hp (FileSystem.chunkOf_eq_error_iff.mpr
        (Or.inr ⟨habort, _, htree, _, hd, _, h⟩))
  | unopened h =>
      rw [hopen] at h
      cases h

/-- **All or nothing.** A run that fails, which it does on one of the things that
it can fail on, leaves every file as it was. One that succeeds has read every
source, and changes the file that the destination leads to and no other. -/
theorem makeTags_all_or_nothing :
    match (makeTags paths config fs walker).result with
    | .error _ => (makeTags paths config fs walker).fs = fs ∧ Fails paths config fs walker
    | .ok summary =>
        ¬Fails paths config fs walker ∧ ∃ chunks place old,
          Writes paths config fs walker chunks place old (makeTags paths config fs walker) summary := by
  have hrun := makeTags_eq paths config fs walker
  split at hrun
  · obtain ⟨hresult, hfs⟩ := Prod.mk.inj hrun
    rw [hresult]
    exact ⟨hfs, .noSources ‹_›⟩
  · rename_i hfiles
    cases hchunks : (runFiles paths fs walker).mapM (fs.chunkOf (SourceReader.go fs) config.index) with
    | error cause =>
        rw [hchunks] at hrun
        obtain ⟨hresult, hfs⟩ := Prod.mk.inj hrun
        obtain ⟨p, hp, fault, hfault⟩ := mapM_eq_error_iff.mp ⟨cause, hchunks⟩
        rw [hresult]
        exact ⟨hfs, fails_of_chunkOf paths config fs walker hp hfault⟩
    | ok chunks =>
        rw [hchunks] at hrun
        dsimp only at hrun
        cases hopen : fs.openFile config.output.policy (config.output.destination fs) with
        | error cause =>
            rw [hopen] at hrun
            obtain ⟨hresult, hfs⟩ := Prod.mk.inj hrun
            rw [hresult]
            exact ⟨hfs, .unopened hopen⟩
        | ok opened =>
            obtain ⟨place, old⟩ := opened
            rw [hopen] at hrun
            obtain ⟨hresult, hfs⟩ := Prod.mk.inj hrun
            have hindexed := mapM_eq_ok_iff.mp hchunks
            rw [hresult]
            refine ⟨not_fails paths config fs walker hfiles hchunks hopen, chunks, place, old, ?_⟩
            refine ⟨?_, ?_, hopen, ?_, ?_, ?_, rfl, rfl⟩
            · refine hindexed.imp ?_
              intro p chunk h
              obtain ⟨tree, htree, hbuild⟩ := FileSystem.chunkOf_eq_ok_iff.mp h
              exact ⟨tree, htree, FileLines.fileName_of_build hbuild, hbuild⟩
            · refine assemble_ne_nil ?_
              rintro rfl
              exact hfiles (List.forall₂_nil_right_iff.mp hindexed)
            · rw [hfs]
              rfl
            · rw [hfs]
              exact fs.at?_put_self _ (FileSystem.openFile_ne_root hopen)
            · intro q hq
              rw [hfs]
              exact fs.at?_put_of_ne _ hq

end Runs

end GoTags
