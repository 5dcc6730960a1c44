import GoTags.Proofs.Blocks
import GoTags.Proofs.RecordLines

/-!
# Pages of a tags file

An editor does not trust the lengths in a tags file. It cuts the file at every page break,
and takes a page for a header line and the records under it. Names and source lines are
written as they are, and may hold form feeds, also at their ends; what keeps the pages
whole is that every line of a tags file ends in a digit.

**Input.** Chunks that were built, in either layout, without newlines in their texts.

**Results.**
* `pages_append_break`: a page break always separates two pages.
* `exists_break_iff`: where page breaks stand, by the pages.
* `pages_lines`: lines that end in no form feed make one page.
* `pages_assemble`: the pages of a tags file are its chunks.
* `pages_agree_with_lengths`: cutting at page breaks and trusting the lengths give the same
  sections.
-/

namespace GoTags

section Pages

/-- The form feed, the first byte of a page break. -/
def formFeed : UInt8 := 0x0c

/-- Pieces with one more byte in front of the first. -/
def putFirst (b : UInt8) : List Bytes → List Bytes
  | [] => [[b]]
  | page :: more => (b :: page) :: more

/-- The pieces of a byte string between page breaks: what stands before the first, and a
page after each. -/
def pages : Bytes → List Bytes
  | [] => [[]]
  | [b] => [[b]]
  | b :: c :: rest =>
      if b = formFeed ∧ c = Bytes.newline then [] :: pages rest
      else putFirst b (pages (c :: rest))

/-- Pieces put together with page breaks between them. -/
def joinPages : List Bytes → Bytes
  | [] => []
  | page :: more => page ++ more.flatMap (pageBreak ++ ·)

theorem putFirst_append (b : UInt8) {pieces : List Bytes} (h : pieces ≠ []) (more : List Bytes) :
    putFirst b (pieces ++ more) = putFirst b pieces ++ more := by
  cases pieces with
  | nil => exact absurd rfl h
  | cons page pieces => rfl

theorem joinPages_putFirst (b : UInt8) (pieces : List Bytes) :
    joinPages (putFirst b pieces) = b :: joinPages pieces := by
  cases pieces with
  | nil => rfl
  | cons page pieces => rfl

theorem pages_ne_nil (data : Bytes) : pages data ≠ [] := by
  fun_cases pages data with
  | case1 => simp
  | case2 => simp
  | case3 => simp
  | case4 b c rest _ =>
      cases pages (c :: rest) with
      | nil => simp [putFirst]
      | cons page more => simp [putFirst]

theorem pages_cons_cons {b c : UInt8} (h : ¬(b = formFeed ∧ c = Bytes.newline)) (rest : Bytes) :
    pages (b :: c :: rest) = putFirst b (pages (c :: rest)) :=
  if_neg h

theorem pages_cons_of_ne {b : UInt8} (h : b ≠ formFeed) (rest : Bytes) :
    pages (b :: rest) = putFirst b (pages rest) := by
  cases rest with
  | nil => rfl
  | cons c rest => exact pages_cons_cons (fun hbreak => h hbreak.1) rest

/-- A page break always separates two pages: none of its bytes can be part of another
page break. -/
theorem pages_append_break (front back : Bytes) :
    pages (front ++ (pageBreak ++ back)) = pages front ++ pages back := by
  induction front using pages.induct with
  | case1 => rfl
  | case2 b =>
      have hbreak : ¬(b = formFeed ∧ formFeed = Bytes.newline) :=
        fun h => absurd h.2 (by decide)
      exact pages_cons_cons hbreak (Bytes.newline :: back)
  | case3 b c rest hbreak ih =>
      rw [List.cons_append, List.cons_append, pages, if_pos hbreak, ih, pages, if_pos hbreak,
        List.cons_append]
  | case4 b c rest hbreak ih =>
      rw [List.cons_append] at ih
      rw [List.cons_append, List.cons_append, pages_cons_cons hbreak, ih, pages_cons_cons hbreak,
        putFirst_append b (pages_ne_nil _)]

/-- Nothing is lost in pages. -/
theorem joinPages_pages (data : Bytes) : joinPages (pages data) = data := by
  induction data using pages.induct with
  | case1 => rfl
  | case2 b => rfl
  | case3 b c rest hbreak ih =>
      obtain ⟨rfl, rfl⟩ := hbreak
      rw [pages, if_pos ⟨rfl, rfl⟩]
      cases hpages : pages rest with
      | nil => exact absurd hpages (pages_ne_nil rest)
      | cons page more =>
          rw [hpages] at ih
          rw [← ih]
          simp [joinPages, pageBreak, formFeed]
  | case4 b c rest hbreak ih =>
      rw [pages_cons_cons hbreak, joinPages_putFirst, ih]

theorem joinPages_append {front : List Bytes} (h : front ≠ []) (back : List Bytes) :
    joinPages (front ++ back) = joinPages front ++ back.flatMap (pageBreak ++ ·) := by
  cases front with
  | nil => exact absurd rfl h
  | cons page front => simp [joinPages]

/-- Page breaks stand where the pages can be cut into two, and nowhere else. -/
theorem exists_break_iff {data before : Bytes} :
    (∃ after, data = before ++ (pageBreak ++ after)) ↔
      ∃ front back, front ≠ [] ∧ back ≠ [] ∧ pages data = front ++ back ∧
        before = joinPages front := by
  constructor
  · rintro ⟨after, rfl⟩
    exact ⟨pages before, pages after, pages_ne_nil before, pages_ne_nil after,
      pages_append_break before after, (joinPages_pages before).symm⟩
  · rintro ⟨front, back, hfront, hback, hpages, rfl⟩
    obtain ⟨page, more, rfl⟩ := List.exists_cons_of_ne_nil hback
    refine ⟨page ++ more.flatMap (pageBreak ++ ·), ?_⟩
    rw [← joinPages_pages data, hpages, joinPages_append hfront, List.flatMap_cons,
      List.append_assoc]

/-- Pages that hold no page break come back from the bytes they make. -/
theorem pages_joinPages {page : Bytes} {more : List Bytes}
    (h : ∀ p ∈ page :: more, pages p = [p]) : pages (joinPages (page :: more)) = page :: more := by
  rw [joinPages]
  induction more generalizing page with
  | nil =>
      rw [List.flatMap_nil, List.append_nil]
      exact h page List.mem_cons_self
  | cons next more ih =>
      rw [List.forall_mem_cons] at h
      rw [List.flatMap_cons, List.append_assoc, pages_append_break, h.1, ih h.2]
      rfl

end Pages

section Lines

/-- A line whose newline is not part of a page break: it holds no other newline, and no form
feed ends it. -/
def EndsQuietly (line : Bytes) : Prop :=
  Bytes.newline ∉ line ∧ line.getLast? ≠ some formFeed

theorem EndsQuietly.pages_append {line rest : Bytes} (h : EndsQuietly line)
    (hrest : pages rest = [rest]) :
    pages (line ++ Bytes.newline :: rest) = [line ++ Bytes.newline :: rest] := by
  obtain ⟨hline, hend⟩ := h
  induction line with
  | nil =>
      rw [List.nil_append, pages_cons_of_ne (by decide), hrest]
      rfl
  | cons b line ih =>
      rw [List.mem_cons, not_or] at hline
      cases line with
      | nil =>
          have hb : b ≠ formFeed := fun hb => hend (by rw [hb]; rfl)
          rw [List.cons_append, pages_cons_of_ne hb, ih List.not_mem_nil (by simp)]
          rfl
      | cons c line =>
          have hbreak : ¬(b = formFeed ∧ c = Bytes.newline) := by
            rintro ⟨-, rfl⟩
            exact hline.2 List.mem_cons_self
          rw [List.cons_append] at ih
          rw [List.cons_append, List.cons_append, pages_cons_cons hbreak,
            ih hline.2 (by simpa using hend)]
          rfl

/-- Lines that end in no form feed make one page. -/
theorem pages_lines {lines : List Bytes} (h : ∀ line ∈ lines, EndsQuietly line) :
    pages (lines.flatMap fun line => line ++ [Bytes.newline]) =
      [lines.flatMap fun line => line ++ [Bytes.newline]] := by
  induction lines with
  | nil => rfl
  | cons line lines ih =>
      rw [List.forall_mem_cons] at h
      have hpage := h.1.pages_append (ih h.2)
      rw [List.flatMap_cons, List.append_assoc, List.singleton_append]
      exact hpage

theorem endsQuietly_append_write {front : Bytes} (h : Bytes.newline ∉ front) (n : Nat) :
    EndsQuietly (front ++ Decimal.write n) := by
  constructor
  · rw [List.mem_append, not_or]
    exact ⟨h, Decimal.not_mem_write n (by decide)⟩
  · intro hend
    rw [List.getLast?_append_of_ne_nil _ (Decimal.write_ne_nil n)] at hend
    have hdigit := Decimal.isDigit_of_mem_write (List.mem_of_getLast? hend)
    exact absurd hdigit (by decide)

theorem Record.endsQuietly_body {r : Record} (layout : Layout)
    (h : Bytes.newline ∉ Utf8.encode r.lineText ∧ Bytes.newline ∉ Utf8.encode r.name) :
    EndsQuietly (r.body layout) := by
  have hbody : Bytes.newline ∉ r.body layout := by
    rw [Record.newline_mem_body_iff, not_or]
    exact h
  rw [Record.body, List.append_cons] at hbody ⊢
  rw [List.mem_append, not_or] at hbody
  exact endsQuietly_append_write hbody.1 _

theorem Chunk.endsQuietly_header {c : Chunk} (h : Bytes.newline ∉ Utf8.encode c.fileName) :
    EndsQuietly c.header := by
  have hfront : Bytes.newline ∉ Utf8.encode c.fileName ++ [Bytes.comma] := by
    rw [List.mem_append, not_or]
    exact ⟨h, by decide⟩
  rw [header, List.append_cons]
  exact endsQuietly_append_write hfront _

end Lines

section Sections

/-- The section that an editor makes of a page: the name is what stands before the last
comma of the first line, and the length after it is not looked at. -/
def Section.ofPage? (page : Bytes) : Option Section := do
  let (header, body) ← Bytes.cut Bytes.newline page
  let (name, _) ← Bytes.cutLast Bytes.comma header
  let fileName ← Utf8.decode? name
  return ⟨fileName, body⟩

/-- The sections that an editor finds: all data is in pages, and each is a section. -/
def Section.readPages? (data : Bytes) : Option (List Section) :=
  match pages data with
  | [] :: found => found.mapM Section.ofPage?
  | _ => none

namespace Chunk

/-- A chunk as a page: a section without its page break. -/
def page (c : Chunk) : Bytes :=
  c.header ++ Bytes.newline :: c.bytes

/-- A chunk that declarations and a source of lines gave, under some configuration. -/
def IsBuilt (c : Chunk) : Prop :=
  ∃ (σ : Type) (source : LineSource σ) (config : IndexConfig) (fileName : String)
    (decls : List Declaration) (s : σ), (build source config fileName decls s).1 = .ok c

/-- No newline stands in the texts of a chunk: its file name, source lines and tag names. -/
def OnLines (c : Chunk) : Prop :=
  Bytes.newline ∉ Utf8.encode c.fileName ∧
    ∀ r ∈ c.records, Bytes.newline ∉ Utf8.encode r.lineText ∧ Bytes.newline ∉ Utf8.encode r.name

/-- The page of a chunk is its header and its records, a line each. -/
theorem page_eq_lines {c : Chunk} (h : c.IsBuilt) :
    ∃ layout : Layout, c.page = (c.header :: c.records.map (Record.body layout)).flatMap
      fun line => line ++ [Bytes.newline] := by
  obtain ⟨σ, source, config, fileName, decls, s, hbuild⟩ := h
  refine ⟨config.layout, ?_⟩
  rw [page, bytes_of_build source fileName hbuild, List.flatMap_cons, List.flatMap_map,
    List.append_assoc, List.singleton_append]
  rfl

/-- There is no page break in the page of a chunk. -/
theorem pages_page {c : Chunk} (hbuilt : c.IsBuilt) (hlines : c.OnLines) :
    pages c.page = [c.page] := by
  obtain ⟨layout, hpage⟩ := page_eq_lines hbuilt
  rw [hpage]
  refine pages_lines (List.forall_mem_cons.mpr ⟨endsQuietly_header hlines.1, ?_⟩)
  rw [List.forall_mem_map]
  exact fun r hr => Record.endsQuietly_body layout (hlines.2 r hr)

theorem ofPage?_page {c : Chunk} (h : Bytes.newline ∉ Utf8.encode c.fileName) :
    Section.ofPage? c.page = some (Section.ofChunk c) := by
  have hcut : Bytes.cut Bytes.newline c.page = some (c.header, c.bytes) :=
    Bytes.cut_eq_some_iff.mpr ⟨rfl, (endsQuietly_header h).1⟩
  have hname : Bytes.cutLast Bytes.comma c.header =
      some (Utf8.encode c.fileName, Decimal.write c.bytes.length) :=
    Bytes.cutLast_eq_some_iff.mpr ⟨rfl, Decimal.not_mem_write _ (by decide)⟩
  have htext : Utf8.decode? (Utf8.encode c.fileName) = some c.fileName :=
    Utf8.decode?_eq_some_iff.mpr rfl
  simp only [Section.ofPage?, hcut, hname, htext, Option.bind_eq_bind, Option.bind_some]
  rfl

end Chunk

theorem assemble_eq_joinPages (chunks : List Chunk) :
    assemble chunks = joinPages ([] :: chunks.map Chunk.page) := by
  rw [assemble, joinPages, List.nil_append, List.flatMap_map]
  refine List.flatMap_congr fun c _ => ?_
  rw [Chunk.section, Chunk.page, List.append_assoc]

/-- The pages of a tags file are its chunks. -/
theorem pages_assemble {chunks : List Chunk} (hbuilt : ∀ c ∈ chunks, c.IsBuilt)
    (hlines : ∀ c ∈ chunks, c.OnLines) :
    pages (assemble chunks) = [] :: chunks.map Chunk.page := by
  rw [assemble_eq_joinPages]
  refine pages_joinPages (List.forall_mem_cons.mpr ⟨rfl, ?_⟩)
  rw [List.forall_mem_map]
  exact fun c hc => Chunk.pages_page (hbuilt c hc) (hlines c hc)

theorem mapM_ofPage? {chunks : List Chunk}
    (h : ∀ c ∈ chunks, Bytes.newline ∉ Utf8.encode c.fileName) :
    (chunks.map Chunk.page).mapM Section.ofPage? = some (chunks.map Section.ofChunk) := by
  induction chunks with
  | nil => rfl
  | cons c chunks ih =>
      rw [List.forall_mem_cons] at h
      rw [List.map_cons, List.mapM_cons, Chunk.ofPage?_page h.1, ih h.2]
      rfl

theorem readPages?_assemble {chunks : List Chunk} (hbuilt : ∀ c ∈ chunks, c.IsBuilt)
    (hlines : ∀ c ∈ chunks, c.OnLines) :
    Section.readPages? (assemble chunks) = some (chunks.map Section.ofChunk) := by
  rw [Section.readPages?, pages_assemble hbuilt hlines]
  exact mapM_ofPage? fun c hc => (hlines c hc).1

/-- Page breaks stand in front of the chunks of a tags file, and nowhere else. -/
theorem exists_break_assemble_iff {chunks : List Chunk} (hbuilt : ∀ c ∈ chunks, c.IsBuilt)
    (hlines : ∀ c ∈ chunks, c.OnLines) (before : Bytes) :
    (∃ after, assemble chunks = before ++ (pageBreak ++ after)) ↔
      ∃ front c back, chunks = front ++ c :: back ∧ before = assemble front := by
  rw [exists_break_iff, pages_assemble hbuilt hlines]
  constructor
  · rintro ⟨front, back, hfront, hback, hpages, rfl⟩
    -- the first piece is the nothing before the first chunk
    obtain ⟨first, front, rfl⟩ := List.exists_cons_of_ne_nil hfront
    obtain ⟨rfl, hmap⟩ := List.cons.inj hpages
    obtain ⟨chunks₁, chunks₂, rfl, rfl, rfl⟩ := List.map_eq_append_iff.mp hmap
    cases chunks₂ with
    | nil => exact absurd rfl hback
    | cons c back => exact ⟨chunks₁, c, back, rfl, (assemble_eq_joinPages chunks₁).symm⟩
  · rintro ⟨front, c, back, rfl, rfl⟩
    exact ⟨[] :: front.map Chunk.page, (c :: back).map Chunk.page, by simp, by simp, by simp,
      assemble_eq_joinPages front⟩

/-- The lengths in a tags file that can be read are below the limit. -/
theorem Section.length_lt_of_readAll {data : Bytes} {sections : List Section}
    (h : readAll data = .ok sections) : ∀ s ∈ sections, s.body.length < Decimal.limit := by
  obtain ⟨blocks, -, rfl⟩ := readAll_eq_ok_iff_join.mp h
  rw [List.forall_mem_map]
  exact fun b _ => b.length_lt

/-- **Pages and lengths agree.** In a tags file of chunks that were built, without newlines
in their texts, page breaks stand exactly at the starts of the sections, and cutting at
them gives the sections of the chunks. Trusting the lengths gives the same sections, unless
a length is too large to be one. -/
theorem pages_agree_with_lengths {chunks : List Chunk} (hbuilt : ∀ c ∈ chunks, c.IsBuilt)
    (hlines : ∀ c ∈ chunks, c.OnLines) :
    (∀ before, (∃ after, assemble chunks = before ++ (pageBreak ++ after)) ↔
        ∃ front c back, chunks = front ++ c :: back ∧ before = assemble front) ∧
      Section.readPages? (assemble chunks) = some (chunks.map Section.ofChunk) ∧
      (Section.readAll (assemble chunks) = .ok (chunks.map Section.ofChunk) ↔
        ∀ c ∈ chunks, c.bytes.length < Decimal.limit) := by
  refine ⟨exists_break_assemble_iff hbuilt hlines, readPages?_assemble hbuilt hlines, ?_, ?_⟩
  · intro hread c hc
    exact Section.length_lt_of_readAll hread (Section.ofChunk c) (List.mem_map_of_mem hc)
  · intro hsize
    exact Section.readAll_assemble fun c hc => ⟨(hlines c hc).1, hsize c hc⟩

/-- Two layouts, with form feeds at the ends of names and source lines, and delimiters in
them. -/
theorem pages_agree_with_lengths_form_feeds :
    let plain : Chunk := ⟨"a,\x0c", [⟨"x\x0c", "\x0c", 1, 0⟩], Bytes.ascii "x\x0c\x0c1,0\n", 0⟩
    let marked : Chunk :=
      ⟨"\x0c", [⟨"\x7f\x01\x0c", "n\x0c", 2, 10⟩],
        Bytes.ascii "\x7f\x01\x0c\x7fn\x0c\x012,10\n", 1⟩
    (∀ c ∈ [plain, marked], c.IsBuilt ∧ c.OnLines ∧ c.bytes.length < Decimal.limit) ∧
      Section.readAll (assemble [plain, marked]) =
        .ok ([plain, marked].map Section.ofChunk) ∧
      Section.readPages? (assemble [plain, marked]) =
        some ([plain, marked].map Section.ofChunk) := by
  intro plain marked
  have hplain : plain.IsBuilt :=
    ⟨Unit, .given [(Bytes.ascii "f", 1, "x\x0c")], ⟨.abort, .legacy⟩, "a,\x0c",
      [⟨.value, "\x0c", Bytes.ascii "f", 1, 0⟩], (), rfl⟩
  have hmarked : marked.IsBuilt :=
    ⟨Unit, .given [(Bytes.ascii "f", 2, "\x7f\x01\x0c")], ⟨.skip, .etags⟩, "\x0c",
      [⟨.value, "n\x0c", Bytes.ascii "f", 2, 10⟩, ⟨.value, "m", Bytes.ascii "f", 3, 20⟩], (), rfl⟩
  have hbuilt : ∀ c ∈ [plain, marked], c.IsBuilt := by
    simp [hplain, hmarked]
  have hlines : ∀ c ∈ [plain, marked], c.OnLines := by
    unfold Chunk.OnLines
    decide
  have hsize : ∀ c ∈ [plain, marked], c.bytes.length < Decimal.limit := by decide
  obtain ⟨-, hpages, hlengths⟩ := pages_agree_with_lengths hbuilt hlines
  exact ⟨fun c hc => ⟨hbuilt c hc, hlines c hc, hsize c hc⟩, hlengths.mpr hsize, hpages⟩

end Sections

end GoTags
