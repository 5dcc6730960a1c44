import GoTags.Proofs.Blocks

/-!
# Tags files that are cut short

A write that does not get to its end leaves a front of what was to be written. A front
that ends where a section ends is a tags file; the reader refuses every other one, so that
no cut goes unnoticed but one between two sections.

**Input.** A tags file that can be read, and the number of bytes that are left of it.

**Results.**
* `join_append_join`: of two rows of blocks in front of the same bytes, one continues the
  other.
* `exists_front_iff`: where a row of blocks can be cut into two.
* `filter_withEnds`: the blocks before such a cut are those that end by it.
* `mem_accepted_iff`: which fronts of some data are tags files.
* `readAll_take`: what is read in every front of a tags file.
-/

namespace GoTags
namespace Section

namespace Block

section Rows

theorem length_bytes_pos (b : Block) : 0 < b.bytes.length :=
  List.length_pos_of_ne_nil b.isBlock.ne_nil

/-- Of two rows of blocks in front of the same bytes, one continues the other. -/
theorem join_append_join {blocks blocks' : List Block} {rest rest' : Bytes}
    (h : join blocks ++ rest = join blocks' ++ rest') :
    (∃ more, blocks' = blocks ++ more ∧ rest = join more ++ rest') ∨
      ∃ more, blocks = blocks' ++ more ∧ rest' = join more ++ rest := by
  induction blocks generalizing blocks' with
  | nil => exact Or.inl ⟨blocks', rfl, h⟩
  | cons b blocks ih =>
      cases blocks' with
      | nil => exact Or.inr ⟨b :: blocks, rfl, h.symm⟩
      | cons b' blocks' =>
          rw [join_cons, join_cons, List.append_assoc, List.append_assoc] at h
          obtain ⟨rfl, hrest⟩ := bytes_append_inj h
          obtain ⟨more, rfl, hmore⟩ | ⟨more, rfl, hmore⟩ := ih hrest
          · exact Or.inl ⟨more, rfl, hmore⟩
          · exact Or.inr ⟨more, rfl, hmore⟩

end Rows

section Ends

/-- The blocks of a row that starts at a position, each with the position after it. -/
def withEnds : Nat → List Block → List (Nat × Block)
  | _, [] => []
  | start, b :: blocks =>
      (start + b.bytes.length, b) :: withEnds (start + b.bytes.length) blocks

theorem withEnds_append (start : Nat) (front back : List Block) :
    withEnds start (front ++ back) =
      withEnds start front ++ withEnds (start + (join front).length) back := by
  induction front generalizing start with
  | nil => rfl
  | cons b front ih =>
      rw [List.cons_append, withEnds, withEnds, ih, join_cons, List.length_append, Nat.add_assoc,
        List.cons_append]

theorem map_snd_withEnds (start : Nat) (blocks : List Block) :
    (withEnds start blocks).map Prod.snd = blocks := by
  induction blocks generalizing start with
  | nil => rfl
  | cons b blocks ih => rw [withEnds, List.map_cons, ih]

/-- A block ends after the start of its row, and not after the end of it. -/
theorem bounds_of_mem_withEnds {start : Nat} {blocks : List Block} {x : Nat × Block}
    (h : x ∈ withEnds start blocks) : start < x.1 ∧ x.1 ≤ start + (join blocks).length := by
  induction blocks generalizing start with
  | nil => cases h
  | cons b blocks ih =>
      have hpos := b.length_bytes_pos
      rw [join_cons, List.length_append]
      rcases List.mem_cons.mp h with rfl | h
      · dsimp only
        omega
      · have hx := ih h
        omega

theorem exists_of_mem_withEnds {start : Nat} {blocks : List Block} {x : Nat × Block}
    (h : x ∈ withEnds start blocks) :
    ∃ front back, blocks = front ++ back ∧ x.1 = start + (join front).length := by
  induction blocks generalizing start with
  | nil => cases h
  | cons b blocks ih =>
      rcases List.mem_cons.mp h with rfl | h
      · exact ⟨[b], blocks, rfl, by simp⟩
      · obtain ⟨front, back, rfl, hx⟩ := ih h
        refine ⟨b :: front, back, rfl, ?_⟩
        rw [hx, join_cons, List.length_append, Nat.add_assoc]

/-- A row of blocks can be cut into two at its start and where a block ends. -/
theorem exists_front_iff {blocks : List Block} {k : Nat} :
    (∃ front back, blocks = front ++ back ∧ k = (join front).length) ↔
      k = 0 ∨ k ∈ (withEnds 0 blocks).map Prod.fst := by
  constructor
  · rintro ⟨front, back, rfl, rfl⟩
    rcases List.eq_nil_or_concat' front with rfl | ⟨front, b, rfl⟩
    · exact Or.inl rfl
    · refine Or.inr (List.mem_map.mpr ⟨(0 + (join front).length + b.bytes.length, b), ?_, ?_⟩)
      · rw [List.append_assoc, withEnds_append]
        exact List.mem_append_right _ List.mem_cons_self
      · simp
  · rintro (rfl | h)
    · exact ⟨[], blocks, rfl, rfl⟩
    · obtain ⟨x, hx, rfl⟩ := List.mem_map.mp h
      obtain ⟨front, back, hblocks, hend⟩ := exists_of_mem_withEnds hx
      exact ⟨front, back, hblocks, by omega⟩

/-- The blocks that end by the end of a front are those of the front. -/
theorem filter_withEnds (front back : List Block) :
    ((withEnds 0 (front ++ back)).filter fun x => x.1 ≤ (join front).length).map
      (fun x => x.2.toSection) = front.map toSection := by
  have hfront : (withEnds 0 front).filter (fun x => x.1 ≤ (join front).length) =
      withEnds 0 front := by
    refine List.filter_eq_self.mpr fun x hx => ?_
    have hbounds := bounds_of_mem_withEnds hx
    exact decide_eq_true (by omega)
  have hback : (withEnds (0 + (join front).length) back).filter
      (fun x => x.1 ≤ (join front).length) = [] := by
    refine List.filter_eq_nil_iff.mpr fun x hx => ?_
    have hbounds := bounds_of_mem_withEnds hx
    exact fun h => absurd (of_decide_eq_true h) (by omega)
  rw [withEnds_append, List.filter_append, hfront, hback, List.append_nil]
  rw [← Function.comp_def toSection Prod.snd, ← List.map_map, map_snd_withEnds]

end Ends

end Block

section Fronts

theorem readAll_join (blocks : List Block) :
    readAll (Block.join blocks) = .ok (blocks.map Block.toSection) :=
  readAll_eq_ok_iff_join.mpr ⟨blocks, rfl, rfl⟩

/-- What is wrong with a tags file is wrong at some byte of it. -/
theorem exists_of_readAll_ne_ok {data : Bytes} (h : ∀ sections, readAll data ≠ .ok sections) :
    ∃ fault position, readAll data = .error (.atByte fault position) := by
  unfold readAll at h ⊢
  cases hread : readMany data.length 0 data with
  | ok sections => exact absurd (by rw [hread]; rfl) (h sections)
  | error fault => exact ⟨fault.1, fault.2, rfl⟩

/-- The lengths of the fronts of some data that are tags files. -/
def accepted (data : Bytes) : Set Nat :=
  {k | k ≤ data.length ∧ ∃ sections, readAll (data.take k) = .ok sections}

/-- The fronts that are tags files are made of the first blocks, as far as there are
blocks. -/
theorem mem_accepted_iff (blocks : List Block) {rest : Bytes} {fault : SectionFault × Nat}
    (h : readOne 0 rest = .error fault) {k : Nat} :
    k ∈ accepted (Block.join blocks ++ rest) ↔
      ∃ front back, blocks = front ++ back ∧ k = (Block.join front).length := by
  constructor
  · rintro ⟨hk, sections, hread⟩
    obtain ⟨front, hfront, -⟩ := readAll_eq_ok_iff_join.mp hread
    have hlength : k = (Block.join front).length := by
      rw [← hfront, List.length_take_of_le hk]
    have hrow : Block.join front ++ (Block.join blocks ++ rest).drop k =
        Block.join blocks ++ rest := by
      rw [← hfront, List.take_append_drop]
    obtain ⟨more, hblocks, -⟩ | ⟨more, rfl, hmore⟩ := Block.join_append_join hrow
    · exact ⟨front, more, hblocks, hlength⟩
    · -- a longer row would have a block where no section can be read
      cases more with
      | nil =>
          rw [List.append_nil] at hlength
          exact ⟨blocks, [], (List.append_nil blocks).symm, hlength⟩
      | cons b more =>
          rw [Block.join_cons, List.append_assoc] at hmore
          rw [hmore, Block.readOne_bytes] at h
          cases h
  · rintro ⟨front, back, rfl, rfl⟩
    rw [Block.join_append, List.append_assoc]
    refine ⟨by simp, front.map Block.toSection, ?_⟩
    rw [List.take_left, readAll_join]

/-- **Cuts are noticed.** Of a tags file that can be read, the first bytes are read exactly
if they end where a section ends, or there are none; then the sections that end by there
are found. Every other front is malformed. -/
theorem readAll_take {data : Bytes} {sections : List Section} (h : readAll data = .ok sections) :
    ∃ blocks : List Block, data = Block.join blocks ∧ sections = blocks.map Block.toSection ∧
      ∀ k ≤ data.length,
        if k = 0 ∨ k ∈ (Block.withEnds 0 blocks).map Prod.fst then
          readAll (data.take k) =
            .ok (((Block.withEnds 0 blocks).filter fun x => x.1 ≤ k).map fun x => x.2.toSection)
        else ∃ fault position, readAll (data.take k) = .error (.atByte fault position) := by
  obtain ⟨blocks, rfl, rfl⟩ := readAll_eq_ok_iff_join.mp h
  refine ⟨blocks, rfl, rfl, fun k hk => ?_⟩
  split
  · rename_i hend
    obtain ⟨front, back, rfl, rfl⟩ := Block.exists_front_iff.mpr hend
    rw [Block.filter_withEnds, Block.join_append, List.take_left, readAll_join]
  · rename_i hend
    refine exists_of_readAll_ne_ok fun found hfound => hend (Block.exists_front_iff.mp ?_)
    -- nothing follows the last block
    rw [← mem_accepted_iff blocks (rfl : readOne 0 [] = .error (.noPageBreak, 0)), List.append_nil]
    exact ⟨hk, found, hfound⟩

/-- A file cut between its two sections, and in the digits of a generous length. -/
theorem readAll_take_generous :
    let data := Bytes.ascii "\x0c\na,+01\nx\x0c\nb,0\n"
    readAll data = .ok [⟨"a", Bytes.ascii "x"⟩, ⟨"b", []⟩] ∧
      readAll (data.take 9) = .ok [⟨"a", Bytes.ascii "x"⟩] ∧
      ∃ fault position, readAll (data.take 6) = .error (.atByte fault position) := by
  intro data
  have hread : readAll data = .ok [⟨"a", Bytes.ascii "x"⟩, ⟨"b", []⟩] := by decide
  obtain ⟨blocks, hdata, -, hcut⟩ := readAll_take hread
  have hblocks : blocks =
      [⟨"a", Bytes.ascii "+01", Bytes.ascii "x", by decide,
          Decimal.read?_eq_some_iff.mp (by decide)⟩,
        ⟨"b", Bytes.ascii "0", [], by decide, Decimal.read?_eq_some_iff.mp (by decide)⟩] :=
    Block.join_injective (hdata.symm.trans (by decide))
  subst hblocks
  have hbetween := hcut 9 (by decide)
  have hinside := hcut 6 (by decide)
  rw [if_pos (by decide)] at hbetween
  rw [if_neg (by decide)] at hinside
  exact ⟨hread, hbetween, hinside⟩

end Fronts

end Section
end GoTags
