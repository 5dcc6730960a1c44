import GoTags.Proofs.Blocks

/-!
# Tags files written again

The reader takes more spellings of a length than are ever written: a plus sign in front,
and zeros. A tags file that is read and written again has the same sections, with every
length in its canonical form, which is the shortest.

**Input.** Bytes that are read as sections, and chunks with these names and bodies.

**Results.**
* `Decimal.write_append`: digits behind a number that is written.
* `Decimal.length_write_le`: no spelling of a number is shorter than the canonical one.
* `Decimal.canonical_iff`: which spelling that is.
* `assemble_eq_join`: what is written again, block by block.
* `assemble_normalises`: reading and writing again is a normal form of tags files.
-/

namespace GoTags

namespace Decimal

section Canonical

/-- The canonical form of a number: no plus sign, and a zero in front only if it is all. -/
def Canonical (numeral : Bytes) : Prop :=
  numeral.head? ≠ some 0x2b ∧ (numeral.head? = some 0x30 → numeral = [0x30])

instance (numeral : Bytes) : Decidable (Canonical numeral) :=
  inferInstanceAs (Decidable (_ ∧ _))

theorem write_digit {b : UInt8} (h : IsDigit b) : write (b.toNat - 0x30) = [b] := by
  unfold IsDigit at h
  have hdigit : b.toNat - 0x30 < 10 := by omega
  rw [write, Nat.toDigits_of_lt_base hdigit, List.map_singleton,
    Nat.toNat_digitChar_of_lt_ten hdigit]
  have hb : 48 + (b.toNat - 0x30) = b.toNat := by omega
  rw [hb, UInt8.ofNat_toNat]

/-- Digits behind a number that is written continue it. -/
theorem write_append {n : Nat} (hn : 0 < n) {digits : Bytes} (h : ∀ b ∈ digits, IsDigit b) :
    write n ++ digits = write (n * 10 ^ digits.length + valueOf digits) := by
  induction digits generalizing n with
  | nil => simp [valueOf]
  | cons b digits ih =>
      rw [List.forall_mem_cons] at h
      have hdigit : b.toNat - 0x30 < 10 := by
        have hb := h.1
        unfold IsDigit at hb
        omega
      have hone : write n ++ [b] = write (10 * n + (b.toNat - 0x30)) := by
        rw [← write_digit h.1, write, write, write, ← List.map_append,
          Nat.toDigits_append_toDigits (by decide) hn hdigit]
      have hvalue : (10 * n + (b.toNat - 0x30)) * 10 ^ digits.length + valueOf digits =
          n * 10 ^ (b :: digits).length + valueOf (b :: digits) := by
        rw [valueOf_cons, List.length_cons, Nat.pow_succ]
        ring
      rw [List.append_cons, hone, ih (by omega) h.2, hvalue]

theorem write_valueOf {b : UInt8} {digits : Bytes} (hb : b ≠ 0x30)
    (h : ∀ d ∈ b :: digits, IsDigit d) : write (valueOf (b :: digits)) = b :: digits := by
  rw [List.forall_mem_cons] at h
  have hpos : 0 < b.toNat - 0x30 := by
    have hdigit := h.1
    have hne : b.toNat ≠ 0x30 := fun heq => hb (UInt8.toNat_inj.mp heq)
    unfold IsDigit at hdigit
    omega
  rw [valueOf_cons, ← write_append hpos h.2, write_digit h.1, List.singleton_append]

theorem valueOf_zero_cons (digits : Bytes) : valueOf (0x30 :: digits) = valueOf digits := by
  rw [valueOf_cons]
  simp

theorem length_write_valueOf_le {digits : Bytes} (hne : digits ≠ [])
    (h : ∀ b ∈ digits, IsDigit b) : (write (valueOf digits)).length ≤ digits.length := by
  induction digits with
  | nil => exact absurd rfl hne
  | cons b digits ih =>
      by_cases hb : b = 0x30
      · subst hb
        rw [valueOf_zero_cons, List.length_cons]
        cases digits with
        | nil => decide
        | cons c digits =>
            have hrest := ih (List.cons_ne_nil c digits) (List.forall_mem_cons.mp h).2
            omega
      · rw [write_valueOf hb h]

/-- No spelling of a number is shorter than the canonical one. -/
theorem length_write_le {numeral : Bytes} {n : Nat} (h : Denotes numeral n) :
    (write n).length ≤ numeral.length := by
  obtain ⟨sign, digits, rfl, -, hne, hdigits, rfl, -⟩ := h
  have hlength := length_write_valueOf_le hne hdigits
  rw [List.length_append]
  omega

theorem canonical_write (n : Nat) : Canonical (write n) := by
  cases hwrite : write n with
  | nil => exact absurd hwrite (write_ne_nil n)
  | cons b digits =>
      obtain ⟨-, hdigits, hvalue⟩ := digits?_eq_some_iff.mp (digits?_write n)
      rw [hwrite] at hdigits hvalue
      rw [List.forall_mem_cons] at hdigits
      constructor
      · intro hplus
        rw [List.head?_cons, Option.some.injEq] at hplus
        exact not_isDigit_plus (hplus ▸ hdigits.1)
      · intro hzero
        rw [List.head?_cons, Option.some.injEq] at hzero
        subst hzero
        rw [valueOf_zero_cons] at hvalue
        -- without the zero there would be a shorter spelling
        by_cases hne : digits = []
        · rw [hne]
        · have hlength := length_write_valueOf_le hne hdigits.2
          rw [hvalue, hwrite, List.length_cons] at hlength
          omega

/-- Of the spellings of a number, the one that is written is canonical, and no other. -/
theorem canonical_iff {numeral : Bytes} {n : Nat} (h : Denotes numeral n) :
    Canonical numeral ↔ write n = numeral := by
  constructor
  · rintro ⟨hplus, hzero⟩
    obtain ⟨sign, digits, rfl, hsign, hne, hdigits, rfl, -⟩ := h
    rcases hsign with rfl | rfl
    · obtain ⟨b, digits, rfl⟩ := List.exists_cons_of_ne_nil hne
      rw [List.nil_append] at hzero ⊢
      by_cases hb : b = 0x30
      · rw [hzero (by rw [hb]; rfl)]
        decide
      · exact write_valueOf hb hdigits
    · exact absurd rfl hplus
  · rintro rfl
    exact canonical_write n

example : Canonical (Bytes.ascii "0") ∧ ¬Canonical (Bytes.ascii "00") ∧
    ¬Canonical (Bytes.ascii "+7") ∧ Canonical (Bytes.ascii "70") := by decide

theorem denotes_write {n : Nat} (h : n < limit) : Denotes (write n) n :=
  read?_eq_some_iff.mp (read?_write h)

end Canonical

end Decimal

namespace Section

section Writing

/-- A section as it is written. -/
def written (s : Section) : Bytes :=
  pageBreak ++ (Utf8.encode s.fileName ++ Bytes.comma :: Decimal.write s.body.length) ++
    Bytes.newline :: s.body

theorem assemble_eq_written (chunks : List Chunk) :
    assemble chunks = (chunks.map ofChunk).flatMap written := by
  rw [List.flatMap_map]
  rfl

namespace Block

/-- The block with its length in canonical form. -/
def canonical (b : Block) : Block :=
  ⟨b.name, Decimal.write b.body.length, b.body, b.name_oneLine, Decimal.denotes_write b.length_lt⟩

theorem length_canonical_le (b : Block) : b.canonical.bytes.length ≤ b.bytes.length := by
  have hnumeral := Decimal.length_write_le b.numeral_denotes
  simp only [bytes, canonical, List.length_append, List.length_cons]
  omega

theorem canonical_eq_iff (b : Block) : b.canonical = b ↔ Decimal.Canonical b.numeral := by
  rw [Decimal.canonical_iff b.numeral_denotes]
  constructor
  · intro h
    exact congrArg Block.numeral h
  · intro h
    exact Block.ext rfl h rfl

theorem map_toSection_canonical (blocks : List Block) :
    (blocks.map canonical).map toSection = blocks.map toSection := by
  rw [List.map_map]
  rfl

theorem length_join_canonical_le (blocks : List Block) :
    (join (blocks.map canonical)).length ≤ (join blocks).length := by
  induction blocks with
  | nil => rfl
  | cons b blocks ih =>
      have hb := b.length_canonical_le
      rw [List.map_cons, join_cons, join_cons, List.length_append, List.length_append]
      omega

theorem join_canonical_eq_iff (blocks : List Block) :
    join (blocks.map canonical) = join blocks ↔ ∀ b ∈ blocks, Decimal.Canonical b.numeral := by
  rw [join_injective.eq_iff]
  conv_lhs => rw [← List.map_id blocks, List.map_map, List.map_inj_left]
  exact forall₂_congr fun b _ => canonical_eq_iff b

end Block

/-- What is written for sections that were read is their blocks in canonical form. -/
theorem assemble_eq_join {chunks : List Chunk} {blocks : List Block}
    (h : chunks.map ofChunk = blocks.map Block.toSection) :
    assemble chunks = Block.join (blocks.map Block.canonical) := by
  rw [assemble_eq_written, h, List.flatMap_map, Block.join, List.flatMap_map]
  rfl

/-- **Writing again normalises.** Bytes that are read as sections are written again, from
any chunks with their names and bodies, as bytes that are read as the same sections and are
not longer. Once more gives the same bytes. They are the bytes that were read exactly if
every length there is in canonical form. -/
theorem assemble_normalises {data : Bytes} {sections : List Section}
    (h : readAll data = .ok sections) {chunks : List Chunk}
    (hchunks : chunks.map ofChunk = sections) :
    readAll (assemble chunks) = .ok sections ∧
      (assemble chunks).length ≤ data.length ∧
      (∀ again : List Chunk, readAll (assemble chunks) = .ok (again.map ofChunk) →
        assemble again = assemble chunks) ∧
      ∃ blocks : List Block, data = Block.join blocks ∧ sections = blocks.map Block.toSection ∧
        (assemble chunks = data ↔ ∀ b ∈ blocks, Decimal.Canonical b.numeral) := by
  obtain ⟨blocks, rfl, rfl⟩ := readAll_eq_ok_iff_join.mp h
  have hjoin := assemble_eq_join hchunks
  have hread : readAll (assemble chunks) = .ok (blocks.map Block.toSection) :=
    readAll_eq_ok_iff_join.mpr
      ⟨blocks.map Block.canonical, hjoin, (Block.map_toSection_canonical blocks).symm⟩
  refine ⟨hread, ?_, ?_, blocks, rfl, rfl, ?_⟩
  · rw [hjoin]
    exact Block.length_join_canonical_le blocks
  · intro again hagain
    rw [hread, Except.ok.injEq] at hagain
    rw [hjoin, assemble_eq_join hagain.symm]
  · rw [hjoin]
    exact Block.join_canonical_eq_iff blocks

/-- A file with two generous lengths, written again. -/
theorem assemble_normalises_generous :
    let data := Bytes.ascii "\x0c\na,+01\nx\x0c\nb,00\n\x0c\nc,0\n"
    let sections : List Section := [⟨"a", Bytes.ascii "x"⟩, ⟨"b", []⟩, ⟨"c", []⟩]
    let chunks : List Chunk :=
      [⟨"a", [], Bytes.ascii "x", 0⟩, ⟨"b", [], [], 2⟩, ⟨"c", [], [], 0⟩]
    readAll data = .ok sections ∧ chunks.map ofChunk = sections ∧
      readAll (assemble chunks) = .ok sections ∧
      (assemble chunks).length ≤ data.length ∧ assemble chunks ≠ data := by
  intro data sections chunks
  have hread : readAll data = .ok sections := by decide
  have hchunks : chunks.map ofChunk = sections := by decide
  obtain ⟨hagain, hlength, -, -⟩ := assemble_normalises hread hchunks
  exact ⟨hread, hchunks, hagain, hlength, by decide⟩

end Writing

end Section
end GoTags
