import GoTags.Proofs.GoItems
import GoTags.Proofs.Indexing

/-!
# Tags quote the line of their name

**Input.** The sources of a run, each of them accepted by the parser.

**Algorithm.** A source is read twice: once for its names, once for its lines.
The parser counts newlines before a name, and the lines are split at newlines, so
both mean the same line; and a content that is text has lines that are text.

**Results.**
* `scan_of_placed`: the line of a name that stands in a content can be had.
* `scan_of_declared`: the lines of the names that a content declares can be had.
* `exists_chunk`: the chunk of an accepted source, whatever is done about lines.
* `index_tags_iff`: accepted sources are indexed without losses, and every tag
  quotes the line that its name stands on.
-/

namespace GoTags

section Lines

/-- A record tells where its name stands in a content: `lineText` is the line with
the number `line`, and the name stands on it at the offset `byteOffset`. -/
def Record.Located (content : Bytes) (r : Record) : Prop :=
  ∃ above left right below,
    Lines.IsLine content above (Utf8.encode r.lineText) below ∧
      Utf8.encode r.lineText = left ++ Utf8.encode r.name ++ right ∧
      r.byteOffset = above.length + left.length ∧
      r.line = above.count Bytes.newline + 1 ∧ r.name ≠ ""

theorem Utf8.encode_ne_nil {s : String} (h : s ≠ "") : Utf8.encode s ≠ [] := by
  intro hnil
  exact h (Utf8.encode_injective hnil)

/-- The line of a name that stands in a content can be had. -/
theorem FileLines.scan_of_placed {fs : FileSystem} {path : Path} {content : Bytes}
    (hread : fs.read path = .ok content) (htext : Utf8.IsText content) {i : Ident}
    {before after : String} (h : Go.Placed content i before after) :
    ∃ text, scan fs path i.line = .ok text ∧
      Record.Located content ⟨text, i.name, i.line, i.byteOffset⟩ := by
  obtain ⟨above, left, right, below, hbefore, hleft, hline⟩ :=
    Lines.exists_isLine (Utf8.encode before) (Utf8.encode after) h.one_line
  rw [← h.content_eq] at hline
  have hne : left ++ Utf8.encode i.name ++ right ≠ [] := by
    simp [Utf8.encode_ne_nil h.name_ne]
  have hnumber : i.line = above.count Bytes.newline + 1 := by
    rw [h.line_eq, hbefore, List.count_append, List.count_eq_zero.mpr hleft, Nat.add_zero]
  have hget := hline.getElem? hne
  have hlineText := Lines.isText_of_mem_all htext (List.mem_of_getElem? hget)
  refine ⟨Utf8.lossy (left ++ Utf8.encode i.name ++ right), ?_, above, left, right, below, ?_, ?_,
    ?_, hnumber, h.name_ne⟩
  · rw [scan_eq fs path (by omega), hread]
    dsimp only
    rw [pick, hnumber, Nat.add_sub_cancel, hget]
    dsimp only
    rw [decode, Utf8.defect?_eq_none_iff.mpr hlineText]
  · dsimp only
    rw [Utf8.encode_lossy hlineText]
    exact hline
  · exact Utf8.encode_lossy hlineText
  · dsimp only
    rw [h.byteOffset_eq, hbefore, List.length_append]

end Lines

section Sources

theorem SourceReader.parse_go {fs : FileSystem} {p : Path} {tree : SourceTree}
    (h : (SourceReader.go fs).parse p = .ok tree) :
    ∃ content, fs.read p = .ok content ∧ tree.path = Path.display p ∧
      Go.items content = .ok tree.items := by
  simp only [SourceReader.go] at h
  cases hread : fs.read p with
  | error cause =>
      rw [hread] at h
      cases h
  | ok content =>
      rw [hread] at h
      obtain ⟨hpath, hitems⟩ := Go.parseSource_eq_ok h
      exact ⟨content, rfl, hpath, hitems⟩

theorem SourceReader.parse_go_of_read {fs : FileSystem} {p : Path} {content : Bytes}
    (h : fs.read p = .ok content) :
    (SourceReader.go fs).parse p = Go.parseSource (Path.display p) content := by
  simp only [SourceReader.go, h]

theorem SourceTree.exists_of_mem_declarations {tree : SourceTree} {d : Declaration}
    (h : d ∈ tree.declarations) :
    ∃ item ∈ tree.items, ∃ x ∈ item.idents, d = x.2.declare (Utf8.encode tree.path) x.1 := by
  obtain ⟨⟨kind, i⟩, hx, hd⟩ := List.mem_filterMap.mp h
  obtain ⟨item, hitem, hx⟩ := List.mem_flatMap.mp hx
  dsimp only at hd
  split at hd
  · cases hd
  · cases hd
    exact ⟨item, hitem, _, hx, rfl⟩

/-- The lines of the names that a content declares can be had where it is read. -/
theorem FileLines.scan_of_declared {fs : FileSystem} {path : Path} {content : Bytes}
    (hread : fs.read path = .ok content) {tree : SourceTree}
    (hitems : Go.items content = .ok tree.items) {d : Declaration} (hd : d ∈ tree.declarations) :
    ∃ text, scan fs path d.line = .ok text ∧
      Record.Located content (.ofDeclaration d text) := by
  obtain ⟨htext, hplaced⟩ := Go.items_placed hitems
  obtain ⟨item, hitem, x, hx, rfl⟩ := SourceTree.exists_of_mem_declarations hd
  obtain ⟨before, after, hx⟩ := hplaced item hitem x hx
  exact scan_of_placed hread htext hx

/-- A chunk holds the tags of a source: one for each declaration, in order, and each
tells where its name stands. -/
structure TagsOf (fs : FileSystem) (name : String) (chunk : Chunk) : Prop where
  fileName : chunk.fileName = name
  dropped : chunk.dropped = 0
  records : ∃ tree content, (SourceReader.go fs).parse (Utf8.encode name) = .ok tree ∧
    fs.read (Utf8.encode name) = .ok content ∧
    List.Forall₂ (fun d r => r = .ofDeclaration d r.lineText ∧ r.Located content)
      tree.declarations chunk.records

/-- The chunk of an accepted source is the same whatever is done about lines that
cannot be had. -/
theorem exists_chunk {fs : FileSystem} (layout : Layout) {name : String} {tree : SourceTree}
    (h : (SourceReader.go fs).parse (Utf8.encode name) = .ok tree) :
    ∃ chunk, (∀ lineErrors, fs.chunkOf (SourceReader.go fs) ⟨lineErrors, layout⟩
      (Utf8.encode name) = .ok chunk) ∧ TagsOf fs name chunk := by
  obtain ⟨content, hread, hpath, hitems⟩ := SourceReader.parse_go h
  rw [Path.display, Utf8.lossy_encode] at hpath
  have hlines : ∀ d ∈ tree.declarations, ∃ text,
      FileLines.scan fs d.file d.line = .ok text ∧
        Record.Located content (.ofDeclaration d text) := by
    intro d hd
    rw [SourceTree.file_of_mem_declarations hd, hpath]
    exact FileLines.scan_of_declared hread hitems hd
  choose! text hscan hlocated using hlines
  let records := tree.declarations.map fun d => Record.ofDeclaration d (text d)
  refine ⟨⟨name, records, records.flatMap (Record.bytes layout), 0⟩, ?_, rfl, rfl, tree, content, h,
    hread, ?_⟩
  · intro lineErrors
    rw [FileSystem.chunkOf, h]
    dsimp only
    rw [FileLines.build_of_resolved ⟨lineErrors, layout⟩ tree.path hscan, hpath]
  · rw [List.forall₂_map_right_iff, List.forall₂_same]
    exact fun d hd => ⟨rfl, hlocated d hd⟩

end Sources

section Index

theorem Index.droppedCount_eq_zero {i : Index} (h : ∀ c ∈ i.chunks, c.dropped = 0) :
    i.droppedCount = 0 := by
  obtain ⟨chunks⟩ := i
  unfold droppedCount
  dsimp only at h ⊢
  induction chunks with
  | nil => rfl
  | cons c chunks ih =>
      rw [List.forall_mem_cons] at h
      rw [List.foldr_cons, h.1, ih h.2]

/-- **Tags are sound.** Sources with names that are text are indexed exactly if all
of them are accepted. The index does not depend on what is done about lines that
cannot be had, nothing is left out, the chunks are named like the sources, and
every record quotes the line on which its name stands, with the number of the line
and the offset of the name. -/
theorem index_tags_iff (fs : FileSystem) (names : List String) (layout : Layout) :
    (∀ name ∈ names, ∃ tree, (SourceReader.go fs).parse (Utf8.encode name) = .ok tree) ↔
      ∃ index : Index,
        (∀ lineErrors, (fs.index (SourceReader.go fs) ⟨lineErrors, layout⟩
          (names.map Utf8.encode)).1 = .ok index) ∧
        index.droppedCount = 0 ∧ List.Forall₂ (TagsOf fs) names index.chunks := by
  constructor
  · intro h
    have hchunks : ∀ name ∈ names, ∃ chunk,
        (∀ lineErrors, fs.chunkOf (SourceReader.go fs) ⟨lineErrors, layout⟩
          (Utf8.encode name) = .ok chunk) ∧ TagsOf fs name chunk := by
      intro name hname
      obtain ⟨tree, htree⟩ := h name hname
      exact exists_chunk layout htree
    have : Nonempty Chunk := ⟨.empty ""⟩
    choose! chunk hchunk htags using hchunks
    refine ⟨⟨names.map chunk⟩, ?_, ?_, ?_⟩
    · intro lineErrors
      have hall : (names.map Utf8.encode).mapM
          (fs.chunkOf (SourceReader.go fs) ⟨lineErrors, layout⟩) = .ok (names.map chunk) := by
        rw [mapM_eq_ok_iff, List.forall₂_map_left_iff, List.forall₂_map_right_iff,
          List.forall₂_same]
        exact fun name hname => hchunk name hname lineErrors
      rw [fs.index_eq, hall]
      rfl
    · refine Index.droppedCount_eq_zero ?_
      rw [List.forall_mem_map]
      exact fun name hname => (htags name hname).dropped
    · rw [List.forall₂_map_right_iff, List.forall₂_same]
      exact htags
  · rintro ⟨index, hindex, -, -⟩ name hname
    cases hparse : (SourceReader.go fs).parse (Utf8.encode name) with
    | ok tree => exact ⟨tree, rfl⟩
    | error fault =>
        have hchunk : fs.chunkOf (SourceReader.go fs) ⟨.skip, layout⟩ (Utf8.encode name) =
            .error fault := by
          rw [FileSystem.chunkOf, hparse]
        obtain ⟨fault', herror⟩ :=
          mapM_eq_error_iff.mpr ⟨_, List.mem_map_of_mem hname, fault, hchunk⟩
        have hskip := hindex .skip
        rw [fs.index_eq, herror] at hskip
        cases hskip

end Index

end GoTags
