import GoTags.Proofs.Decimal
import GoTags.Tag.Section

/-!
# The framing of tags files

**Input.** Chunks, or any bytes.

A section of a tags file is a block: a page break, a header line with a name and
a length, and a body of that length. The reader finds exactly the blocks.

**Results.**
* `readOne_eq_ok_iff`: a section is read where a block of it stands.
* `readMany_eq_ok_iff`: sections are read where blocks of them stand one after
  the other.
* `readAll_assemble_iff`: the chunks of a tags file are read back exactly if no
  file name holds a newline.
-/

namespace GoTags
namespace Section

section Blocks

/-- The bytes of a section: its name stands on the header line, and the number
after it is the length of the body. -/
def IsBlock (s : Section) (block : Bytes) : Prop :=
  ∃ len : Bytes,
    block = pageBreak ++ (Utf8.encode s.fileName ++ Bytes.comma :: len) ++
      Bytes.newline :: s.body ∧
    Bytes.newline ∉ Utf8.encode s.fileName ∧
    Decimal.read? len = some s.body.length

theorem IsBlock.ne_nil {s : Section} {block : Bytes} (h : s.IsBlock block) : block ≠ [] := by
  obtain ⟨len, rfl, -, -⟩ := h
  simp [pageBreak]

/-- A header line gives the name before its last comma and the number after it. -/
theorem readHeader_eq_ok_iff {header : Bytes} {name : String} {length : Nat} :
    readHeader header = .ok (name, length) ↔
      ∃ len : Bytes, header = Utf8.encode name ++ Bytes.comma :: len ∧
        Decimal.read? len = some length := by
  have hcomma : Bytes.comma.toNat < 0x80 := by decide
  constructor
  · intro h
    unfold readHeader at h
    split at h
    · cases h
    · rename_i text htext
      have hheader : Utf8.IsText header := ⟨text, (Utf8.decode?_eq_some_iff.mp htext).symm⟩
      split at h
      · cases h
      · rename_i before len hcut
        obtain ⟨rfl, -⟩ := Bytes.cutLast_eq_some_iff.mp hcut
        have hbefore : Utf8.IsText before := ((Utf8.isText_append_ascii hcomma).mp hheader).1
        split at h
        · cases h
        · rename_i n hn
          simp only [Except.ok.injEq, Prod.mk.injEq] at h
          obtain ⟨rfl, rfl⟩ := h
          exact ⟨len, by rw [Utf8.encode_lossy hbefore], hn⟩
  · rintro ⟨len, rfl, hlen⟩
    have hname : Utf8.IsText (Utf8.encode name) := ⟨name, rfl⟩
    obtain ⟨text, htext⟩ := (Utf8.isText_append_ascii hcomma).mpr
      ⟨hname, Decimal.isText_of_read? hlen⟩
    have hmem : Bytes.comma ∉ len :=
      Decimal.not_mem_of_read? hlen (by decide) (by unfold Decimal.IsDigit; decide)
    unfold readHeader
    rw [Utf8.decode?_eq_some_iff.mpr htext.symm, Bytes.cutLast_eq_some_iff.mpr ⟨rfl, hmem⟩]
    simp only [hlen, Utf8.lossy_encode]

/-- **A section is read where a block of it stands**, whatever follows. -/
theorem readOne_eq_ok_iff {position position' : Nat} {data rest : Bytes} {s : Section} :
    readOne position data = .ok (s, position', rest) ↔
      ∃ block, s.IsBlock block ∧ data = block ++ rest ∧ position' = position + block.length := by
  constructor
  · intro h
    unfold readOne at h
    split at h
    · cases h
    · rename_i afterBreak hbreak
      rw [Bytes.stripFront_eq_some_iff] at hbreak
      subst hbreak
      split at h
      · cases h
      · rename_i header body hcut
        obtain ⟨rfl, hheader⟩ := Bytes.cut_eq_some_iff.mp hcut
        split at h
        · cases h
        · rename_i name length hread
          obtain ⟨len, rfl, hlen⟩ := readHeader_eq_ok_iff.mp hread
          dsimp only at h
          split at h
          · rename_i hfits
            simp only [Except.ok.injEq, Prod.mk.injEq] at h
            obtain ⟨rfl, rfl, rfl⟩ := h
            have hbody : (body.take length).length = length := List.length_take_of_le hfits
            refine ⟨_, ⟨len, rfl, ?_, ?_⟩, ?_, ?_⟩
            · exact fun hname => hheader (List.mem_append_left _ hname)
            · rw [hbody, hlen]
            · simp [List.take_append_drop]
            · simp only [List.length_append, List.length_cons, hbody, pageBreak, List.length_nil]
              omega
          · cases h
  · rintro ⟨block, ⟨len, rfl, hname, hlen⟩, rfl, rfl⟩
    have hread : readHeader (Utf8.encode s.fileName ++ Bytes.comma :: len) =
        .ok (s.fileName, s.body.length) := readHeader_eq_ok_iff.mpr ⟨len, rfl, hlen⟩
    have hheader : Bytes.newline ∉ Utf8.encode s.fileName ++ Bytes.comma :: len := by
      have hmem : Bytes.newline ∉ len :=
        Decimal.not_mem_of_read? hlen (by decide) (by unfold Decimal.IsDigit; decide)
      simp only [List.mem_append, List.mem_cons, not_or]
      exact ⟨hname, by decide, hmem⟩
    generalize Utf8.encode s.fileName ++ Bytes.comma :: len = header at hread hheader
    have hbreak : Bytes.stripFront pageBreak
        (pageBreak ++ header ++ Bytes.newline :: s.body ++ rest) =
          some (header ++ Bytes.newline :: (s.body ++ rest)) :=
      Bytes.stripFront_eq_some_iff.mpr (by simp [List.append_assoc])
    have hcut : Bytes.cut Bytes.newline (header ++ Bytes.newline :: (s.body ++ rest)) =
        some (header, s.body ++ rest) :=
      Bytes.cut_eq_some_iff.mpr ⟨rfl, hheader⟩
    have hfits : s.body.length ≤ (s.body ++ rest).length := by simp
    unfold readOne
    simp only [hbreak, hcut, hread, if_pos hfits, List.take_left', List.drop_left',
      Except.ok.injEq, Prod.mk.injEq, true_and, and_true]
    simp only [List.length_append, List.length_cons, pageBreak, List.length_nil]
    omega

theorem readMany_nil (fuel position : Nat) : readMany fuel position [] = .ok [] := by
  cases fuel <;> rfl

theorem readMany_succ_cons (fuel position : Nat) (b : UInt8) (data : Bytes) :
    readMany (fuel + 1) position (b :: data) =
      match readOne position (b :: data) with
      | .error fault => .error fault
      | .ok (s, position', rest) => (readMany fuel position' rest).map (s :: ·) := rfl

theorem map_cons_eq_ok_iff {ε α : Type} {r : Except ε (List α)} {x : α} {xs : List α} :
    r.map (x :: ·) = .ok xs ↔ ∃ rest, r = .ok rest ∧ xs = x :: rest := by
  cases r with
  | error e => simp [Except.map]
  | ok rest =>
      simp only [Except.map, Except.ok.injEq, exists_eq_left']
      exact eq_comm

theorem readMany_nil_eq_ok_iff {fuel position : Nat} {sections : List Section} :
    readMany fuel position [] = .ok sections ↔
      ∃ blocks : List Bytes, List.Forall₂ IsBlock sections blocks ∧ [] = blocks.flatten := by
  rw [readMany_nil]
  constructor
  · intro h
    cases h
    exact ⟨[], .nil, rfl⟩
  · rintro ⟨blocks, hblocks, hnil⟩
    cases hblocks with
    | nil => rfl
    | cons hblock _ =>
        rw [List.flatten_cons, eq_comm, List.append_eq_nil_iff] at hnil
        exact absurd hnil.1 hblock.ne_nil

/-- **Sections are read where blocks of them stand one after the other.** -/
theorem readMany_eq_ok_iff {fuel position : Nat} {data : Bytes} {sections : List Section}
    (hfuel : data.length ≤ fuel) :
    readMany fuel position data = .ok sections ↔
      ∃ blocks : List Bytes, List.Forall₂ IsBlock sections blocks ∧ data = blocks.flatten := by
  induction fuel generalizing position data sections with
  | zero =>
      have hdata : data = [] := List.eq_nil_of_length_eq_zero (by omega)
      subst hdata
      exact readMany_nil_eq_ok_iff
  | succ fuel ih =>
      cases data with
      | nil => exact readMany_nil_eq_ok_iff
      | cons b data =>
          rw [readMany_succ_cons]
          constructor
          · intro h
            split at h
            · cases h
            · rename_i s position' rest hone
              obtain ⟨block, hblock, hdata, -⟩ := readOne_eq_ok_iff.mp hone
              have hpos : 0 < block.length := List.length_pos_of_ne_nil hblock.ne_nil
              have hlength := congrArg List.length hdata
              rw [List.length_append] at hlength
              obtain ⟨ss, hss, rfl⟩ := map_cons_eq_ok_iff.mp h
              obtain ⟨blocks, hblocks, rfl⟩ := (ih (by omega)).mp hss
              exact ⟨block :: blocks, .cons hblock hblocks, hdata⟩
          · rintro ⟨blocks, hblocks, hdata⟩
            cases hblocks with
            | nil => simp at hdata
            | @cons s block ss blocks hblock hblocks =>
                rw [List.flatten_cons] at hdata
                have hpos : 0 < block.length := List.length_pos_of_ne_nil hblock.ne_nil
                have hlength := congrArg List.length hdata
                rw [List.length_append] at hlength
                have hone := readOne_eq_ok_iff.mpr
                  ⟨block, hblock, hdata, (rfl : position + block.length = _)⟩
                rw [hone]
                exact map_cons_eq_ok_iff.mpr
                  ⟨ss, (ih (by omega)).mpr ⟨blocks, hblocks, rfl⟩, rfl⟩

/-- The sections of a tags file are the blocks it is made of. -/
theorem readAll_eq_ok_iff {data : Bytes} {sections : List Section} :
    readAll data = .ok sections ↔
      ∃ blocks : List Bytes, List.Forall₂ IsBlock sections blocks ∧ data = blocks.flatten := by
  rw [← @readMany_eq_ok_iff data.length 0 data sections (le_refl data.length), readAll]
  cases readMany data.length 0 data with
  | error fault => simp [Except.mapError]
  | ok found => simp [Except.mapError]

end Blocks

section RoundTrip

/-- A chunk as a section that is read back. -/
def ofChunk (c : Chunk) : Section :=
  ⟨c.fileName, c.bytes⟩

theorem isBlock_section {c : Chunk} (hname : Bytes.newline ∉ Utf8.encode c.fileName)
    (hlength : c.bytes.length < Decimal.limit) : (ofChunk c).IsBlock c.section :=
  ⟨Decimal.write c.bytes.length, rfl, hname, Decimal.read?_write hlength⟩

/-- Chunks that fit into a tags file are read back. -/
theorem readAll_assemble {chunks : List Chunk}
    (h : ∀ c ∈ chunks, Bytes.newline ∉ Utf8.encode c.fileName ∧ c.bytes.length < Decimal.limit) :
    readAll (assemble chunks) = .ok (chunks.map ofChunk) := by
  refine readAll_eq_ok_iff.mpr ⟨chunks.map Chunk.section, ?_, rfl⟩
  rw [List.forall₂_map_left_iff, List.forall₂_map_right_iff, List.forall₂_same]
  exact fun c hc => isBlock_section (h c hc).1 (h c hc).2

theorem length_bytes_le_section (c : Chunk) : c.bytes.length ≤ c.section.length := by
  simp only [Chunk.section, List.length_append, List.length_cons]
  omega

theorem length_section_le_assemble {c : Chunk} {chunks : List Chunk} (hc : c ∈ chunks) :
    c.section.length ≤ (assemble chunks).length := by
  obtain ⟨before, after, rfl⟩ := List.append_of_mem hc
  simp only [assemble, List.flatMap_append, List.flatMap_cons, List.length_append]
  omega

theorem newline_not_mem_of_blocks {sections : List Section} {blocks : List Bytes}
    (h : List.Forall₂ IsBlock sections blocks) :
    ∀ s ∈ sections, Bytes.newline ∉ Utf8.encode s.fileName := by
  induction h with
  | nil => simp
  | cons hblock _ ih =>
      obtain ⟨len, -, hname, -⟩ := hblock
      intro s hs
      rcases List.mem_cons.mp hs with rfl | hs
      · exact hname
      · exact ih s hs

/-- **The framing round trip.** A tags file below the limit of lengths is read back
as the names and bytes of its chunks exactly if no name holds a newline. -/
theorem readAll_assemble_iff (chunks : List Chunk)
    (hsize : (assemble chunks).length < Decimal.limit) :
    readAll (assemble chunks) = .ok (chunks.map ofChunk) ↔
      ∀ c ∈ chunks, Bytes.newline ∉ Utf8.encode c.fileName := by
  rw [readAll_eq_ok_iff]
  constructor
  · rintro ⟨blocks, hblocks, -⟩ c hc
    exact newline_not_mem_of_blocks hblocks _ (List.mem_map_of_mem hc)
  · intro hnames
    refine ⟨chunks.map Chunk.section, ?_, rfl⟩
    rw [List.forall₂_map_left_iff, List.forall₂_map_right_iff, List.forall₂_same]
    intro c hc
    have h1 := length_bytes_le_section c
    have h2 := length_section_le_assemble hc
    exact isBlock_section (hnames c hc) (by omega)

theorem readAll_assemble_odd_names :
    let chunks : List Chunk :=
      [⟨"a,1\r", [], Bytes.ascii "\x0c\nb,2\n", 0⟩, ⟨"ü,\x0c", [], [], 3⟩, ⟨"", [], [0xff], 0⟩]
    ((assemble chunks).length < Decimal.limit ∧
        ∀ c ∈ chunks, Bytes.newline ∉ Utf8.encode c.fileName) ∧
      readAll (assemble chunks) = .ok (chunks.map ofChunk) := by
  intro chunks
  have hsize : (assemble chunks).length < Decimal.limit := by decide
  have hnames : ∀ c ∈ chunks, Bytes.newline ∉ Utf8.encode c.fileName := by decide
  exact ⟨⟨hsize, hnames⟩, (readAll_assemble_iff chunks hsize).mpr hnames⟩

end RoundTrip

end Section
end GoTags
