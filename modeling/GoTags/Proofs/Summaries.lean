import GoTags.Proofs.Pages
import GoTags.Proofs.Renaming
import GoTags.Proofs.Runs
import GoTags.Proofs.WholeLines

/-!
# What the summary of a run says

A run counts what it has in memory: chunks, records, and declarations that were left out.
What it writes are bytes, and a reader counts sections and lines in them. Both come to the
same, since neither a source line nor a name can hold a newline, and neither does the name
of a section if the path of the source does not.

**Input.** A run that succeeded, over sources without newlines in their paths.

**Results.**
* `IsChunkOf.records_onLines`, `IsChunkOf.newline_not_mem_fileName`: no text in the chunk of
  a source holds a newline.
* `IsChunkOf.length_records`: how many record lines are read in it.
* `makeTags_eq_ok`: what a run that succeeded has done.
* `describes_of_chunks`: a summary that is counted from chunks describes their bytes.
* `summary_matches_file`: the summary of a run describes what the run wrote.
-/

namespace GoTags

section Texts

variable {fs : FileSystem}

theorem FileLines.newline_not_mem_of_scan {path : Path} {line : Nat} {text : String}
    (h : scan fs path line = .ok text) : Bytes.newline ∉ Utf8.encode text := by
  cases line with
  | zero => cases h
  | succ above =>
      rw [scan_eq fs path above.succ_pos] at h
      split at h
      · cases h
      · have hline := List.mem_of_getElem? (pick_eq_ok_iff.mp h)
        exact Lines.newline_not_mem_of_mem_all hline

theorem SourceReader.newline_not_mem_of_parse_go {p : Path} {tree : SourceTree}
    (h : (SourceReader.go fs).parse p = .ok tree) {d : Declaration} (hd : d ∈ tree.declarations) :
    Bytes.newline ∉ Utf8.encode d.name := by
  obtain ⟨content, -, -, hitems⟩ := SourceReader.parse_go h
  obtain ⟨item, hitem, x, hx, rfl⟩ := SourceTree.exists_of_mem_declarations hd
  obtain ⟨before, after, hplaced⟩ := (Go.items_placed hitems).2 item hitem x hx
  exact hplaced.one_line

end Texts

section Chunks

variable {config : Config} {fs : FileSystem} {p : Path} {chunk : Chunk}

/-- Neither source lines nor names in the records of a source hold a newline. -/
theorem IsChunkOf.records_onLines (h : IsChunkOf config fs p chunk) :
    ∀ r ∈ chunk.records,
      Bytes.newline ∉ Utf8.encode r.lineText ∧ Bytes.newline ∉ Utf8.encode r.name := by
  obtain ⟨tree, htree, -, hbuild⟩ := h
  intro r hr
  rw [FileLines.records_of_build hbuild, List.mem_filterMap] at hr
  obtain ⟨d, hd, hr⟩ := hr
  obtain ⟨text, hscan, rfl⟩ := Option.map_eq_some_iff.mp hr
  exact ⟨FileLines.newline_not_mem_of_scan (toOption_eq_some_iff.mp hscan),
    SourceReader.newline_not_mem_of_parse_go htree hd⟩

/-- The name of a source's chunk holds a newline only if its path does. -/
theorem IsChunkOf.newline_not_mem_fileName (h : IsChunkOf config fs p chunk)
    (hp : Bytes.newline ∉ p) : Bytes.newline ∉ Utf8.encode chunk.fileName := by
  obtain ⟨tree, htree, hname, -⟩ := h
  obtain ⟨content, -, hpath, -⟩ := SourceReader.parse_go htree
  rw [hname, hpath]
  exact fun hmem => hp (Utf8.mem_of_mem_encode_lossy (by decide) hmem)

/-- As many record lines are read in the chunk of a source as it has records. -/
theorem IsChunkOf.length_records (h : IsChunkOf config fs p chunk) :
    (Section.ofChunk chunk).records.length = chunk.records.length := by
  have hlines := h.records_onLines
  obtain ⟨tree, -, -, hbuild⟩ := h
  rw [Section.ofChunk, Chunk.bytes_of_build _ _ hbuild, Section.records_flatMap_bytes _ _ hlines,
    List.length_map]

end Chunks

section Counts

theorem Index.tagCount_eq_sum (chunks : List Chunk) :
    Index.tagCount ⟨chunks⟩ = (chunks.map fun c => c.records.length).sum := by
  induction chunks with
  | nil => rfl
  | cons c chunks ih => rw [List.map_cons, List.sum_cons, ← ih, tagCount, List.foldr_cons, tagCount]

theorem Index.droppedCount_eq_sum (chunks : List Chunk) :
    Index.droppedCount ⟨chunks⟩ = (chunks.map fun c => c.dropped).sum := by
  induction chunks with
  | nil => rfl
  | cons c chunks ih =>
      rw [List.map_cons, List.sum_cons, ← ih, droppedCount, List.foldr_cons, droppedCount]

/-- What a summary says about a run over `files`, which were read into `trees`, if it wrote
`written`: the counts are those of the sections that are read there. -/
structure Summary.Describes (summary : Summary) (files : List Path) (trees : List SourceTree)
    (written : Bytes) : Prop where
  readable : written.length < Decimal.limit →
    ∃ sections, Section.readAll written = .ok sections ∧ summary.files = sections.length ∧
      summary.tags = (sections.map fun s => s.records.length).sum
  files_eq : summary.files = files.length
  declared : summary.tags + summary.dropped = (trees.map fun t => t.declarations.length).sum
  bytes_eq : summary.report.bytesWritten = written.length

variable {config : Config} {fs : FileSystem} {files : List Path} {chunks : List Chunk}

theorem exists_source_of_mem (h : List.Forall₂ (IsChunkOf config fs) files chunks) {c : Chunk}
    (hc : c ∈ chunks) : ∃ p ∈ files, IsChunkOf config fs p c := by
  induction h with
  | nil => cases hc
  | @cons p chunk files chunks hchunk _ ih =>
      rcases List.mem_cons.mp hc with rfl | hc
      · exact ⟨p, List.mem_cons_self, hchunk⟩
      · obtain ⟨q, hq, hchunk'⟩ := ih hc
        exact ⟨q, List.mem_cons_of_mem p hq, hchunk'⟩

/-- Every declaration of the sources is a tag or left out. -/
theorem exists_trees (h : List.Forall₂ (IsChunkOf config fs) files chunks) :
    ∃ trees, files.mapM (SourceReader.go fs).parse = .ok trees ∧
      Index.tagCount ⟨chunks⟩ + Index.droppedCount ⟨chunks⟩ =
        (trees.map fun t => t.declarations.length).sum := by
  simp only [mapM_eq_ok_iff, Index.tagCount_eq_sum, Index.droppedCount_eq_sum]
  induction h with
  | nil => exact ⟨[], .nil, rfl⟩
  | @cons p chunk files chunks hchunk _ ih =>
      obtain ⟨tree, htree, -, hbuild⟩ := hchunk
      obtain ⟨trees, htrees, hsum⟩ := ih
      have hlength := Chunk.length_of_build _ _ hbuild
      refine ⟨tree :: trees, .cons htree htrees, ?_⟩
      simp only [List.map_cons, List.sum_cons]
      omega

/-- The chunks of sources are read back, if they fit into a buffer. -/
theorem readAll_assemble_of_length_lt (hsize : (assemble chunks).length < Decimal.limit)
    (hnames : ∀ c ∈ chunks, Bytes.newline ∉ Utf8.encode c.fileName) :
    Section.readAll (assemble chunks) = .ok (chunks.map Section.ofChunk) := by
  refine Section.readAll_assemble fun c hc => ⟨hnames c hc, ?_⟩
  calc c.bytes.length
    _ ≤ c.section.length := Section.length_bytes_le_section c
    _ ≤ (assemble chunks).length := Section.length_section_le_assemble hc
    _ < Decimal.limit := hsize

/-- A summary that is counted from chunks describes their bytes. -/
theorem describes_of_chunks (h : List.Forall₂ (IsChunkOf config fs) files chunks)
    (hfiles : ∀ p ∈ files, Bytes.newline ∉ p) {trees : List SourceTree}
    (htrees : Index.tagCount ⟨chunks⟩ + Index.droppedCount ⟨chunks⟩ =
      (trees.map fun t => t.declarations.length).sum)
    {report : WriteReport} (hreport : report.bytesWritten = (assemble chunks).length) :
    Summary.Describes ⟨report, chunks.length, Index.tagCount ⟨chunks⟩, Index.droppedCount ⟨chunks⟩⟩
      files trees (assemble chunks) := by
  have hchunks : ∀ c ∈ chunks, (Section.ofChunk c).records.length = c.records.length ∧
      Bytes.newline ∉ Utf8.encode c.fileName := by
    intro c hc
    obtain ⟨p, hp, hchunk⟩ := exists_source_of_mem h hc
    exact ⟨hchunk.length_records, hchunk.newline_not_mem_fileName (hfiles p hp)⟩
  have htags : Index.tagCount ⟨chunks⟩ =
      ((chunks.map Section.ofChunk).map fun s => s.records.length).sum := by
    rw [Index.tagCount_eq_sum, List.map_map]
    exact congrArg List.sum (List.map_congr_left fun c hc => (hchunks c hc).1.symm)
  refine ⟨fun hsize => ?_, h.length_eq.symm, htrees, hreport⟩
  have hread := readAll_assemble_of_length_lt hsize fun c hc => (hchunks c hc).2
  exact ⟨chunks.map Section.ofChunk, hread, (List.length_map _).symm, htags⟩

end Counts

section Runs

variable (paths : List Path) (config : Config) (fs : FileSystem) (walker : Walker)

/-- What can be read at a path that leads to a file, or to where one may be made. -/
theorem FileSystem.toOption_read {fs : FileSystem} {p : Path} {place : Place} {old : Option Bytes}
    (h : fs.spot .find p = .ok (.forFile place old)) : (fs.read p).toOption = old := by
  cases old with
  | some content => exact toOption_eq_some_iff.mpr ((read_eq_ok_iff fs p content).mpr ⟨place, h⟩)
  | none =>
      cases hread : fs.read p with
      | error cause => rfl
      | ok content =>
          obtain ⟨place', hspot⟩ := (read_eq_ok_iff fs p content).mp hread
          rw [h] at hspot
          cases hspot

/-- What a run that succeeded has done: `chunks` are those of its sources, and their bytes
are at the destination, after what stood there or instead of it. -/
theorem makeTags_eq_ok {summary : Summary} (h : (makeTags paths config fs walker).result = .ok summary) :
    ∃ chunks report, List.Forall₂ (IsChunkOf config fs) (runFiles paths fs walker) chunks ∧
      report.bytesWritten = (assemble chunks).length ∧
      summary = ⟨report, chunks.length, Index.tagCount ⟨chunks⟩, Index.droppedCount ⟨chunks⟩⟩ ∧
      (makeTags paths config fs walker).fs.read (config.output.destination fs) =
        .ok (config.output.policy.result
          ((fs.read (config.output.destination fs)).toOption.getD []) (assemble chunks)) := by
  have hrun := makeTags_eq paths config fs walker
  rw [h] at hrun
  split at hrun
  · cases hrun
  · split at hrun
    · cases hrun
    · rename_i chunks hchunks
      dsimp only at hrun
      split at hrun
      · cases hrun
      · rename_i place content hopen
        obtain ⟨hsummary, hfs⟩ := Prod.mk.inj hrun
        obtain ⟨old, hopens, rfl⟩ := WritePolicy.openFile_eq_ok_iff_opens.mp hopen
        have hwritten := written_put (assemble chunks) hopens
        refine ⟨chunks, _, ?_, rfl, Except.ok.inj hsummary, ?_⟩
        · refine (mapM_eq_ok_iff.mp hchunks).imp ?_
          intro p chunk hchunk
          obtain ⟨tree, htree, hbuild⟩ := FileSystem.chunkOf_eq_ok_iff.mp hchunk
          exact ⟨tree, htree, FileLines.fileName_of_build hbuild, hbuild⟩
        · rw [hfs, FileSystem.toOption_read hopens.leads]
          exact hwritten.read

/-- **The summary of a run matches the file.** If a run over sources without newlines in
their paths succeeds, the destination holds the bytes that it wrote, after what it held
before or instead of it, as the policy says. If their number is a number of the machine,
they are read as sections. The summary gives the number of sources, which is that of the
sections, the number of the record lines in them, how many declarations of the sources have
none, and the number of bytes. -/
theorem summary_matches_file :
    match (makeTags paths config fs walker).result with
    | .error _ => True
    | .ok summary =>
        (∀ p ∈ runFiles paths fs walker, Bytes.newline ∉ p) →
          ∃ trees written,
            (runFiles paths fs walker).mapM (SourceReader.go fs).parse = .ok trees ∧
              (makeTags paths config fs walker).fs.read (config.output.destination fs) =
                .ok (config.output.policy.result
                  ((fs.read (config.output.destination fs)).toOption.getD []) written) ∧
              summary.Describes (runFiles paths fs walker) trees written := by
  cases hresult : (makeTags paths config fs walker).result with
  | error failure => trivial
  | ok summary =>
      intro hpaths
      obtain ⟨chunks, report, hchunks, hreport, rfl, hread⟩ :=
        makeTags_eq_ok paths config fs walker hresult
      obtain ⟨trees, htrees, hsum⟩ := exists_trees hchunks
      exact ⟨trees, assemble chunks, htrees, hread,
        describes_of_chunks hchunks hpaths hsum hreport⟩

end Runs

end GoTags
