import GoTags.Proofs.Framing

/-!
# The grammar of tags files

A tags file is a row of blocks, each with a name, a written length and a body of
that length. The reader accepts these rows and nothing else, and what follows a row
of blocks is read as if it stood alone, with its faults further on.

**Input.** Any bytes.

**Results.**
* `join_injective`: bytes are a row of blocks in one way at most.
* `readAll_grammar`: which bytes are read as which sections.
* `readMany_shift`: data that starts further on has its faults further on.
* `readMany_join_append`: blocks are read one by one, and then what follows them.
* `readAll_append`: reading a file that another one was appended to.
-/

namespace GoTags
namespace Section

section Blocks

/-- A block of a tags file. The name stays on its line, and the numeral after it is for
the length of the body. -/
@[ext] structure Block where
  name : String
  numeral : Bytes
  body : Bytes
  name_oneLine : Bytes.newline ∉ Utf8.encode name
  numeral_denotes : Decimal.Denotes numeral body.length

namespace Block

/-- The bytes of a block. -/
def bytes (b : Block) : Bytes :=
  pageBreak ++ (Utf8.encode b.name ++ Bytes.comma :: b.numeral) ++ Bytes.newline :: b.body

/-- The section that a block holds. -/
def toSection (b : Block) : Section :=
  ⟨b.name, b.body⟩

/-- Blocks one after the other. -/
def join (blocks : List Block) : Bytes :=
  blocks.flatMap bytes

theorem isBlock (b : Block) : b.toSection.IsBlock b.bytes :=
  ⟨b.numeral, rfl, b.name_oneLine, Decimal.read?_eq_some_iff.mpr b.numeral_denotes⟩

theorem exists_of_isBlock {s : Section} {piece : Bytes} (h : s.IsBlock piece) :
    ∃ b : Block, b.toSection = s ∧ b.bytes = piece := by
  obtain ⟨numeral, rfl, hname, hnumeral⟩ := h
  exact ⟨⟨s.fileName, numeral, s.body, hname, Decimal.read?_eq_some_iff.mp hnumeral⟩, rfl, rfl⟩

theorem forall₂_isBlock_iff {sections : List Section} {pieces : List Bytes} :
    List.Forall₂ IsBlock sections pieces ↔
      ∃ blocks : List Block, sections = blocks.map toSection ∧ pieces = blocks.map bytes := by
  constructor
  · intro h
    induction h with
    | nil => exact ⟨[], rfl, rfl⟩
    | cons hpiece _ ih =>
        obtain ⟨b, rfl, rfl⟩ := exists_of_isBlock hpiece
        obtain ⟨blocks, rfl, rfl⟩ := ih
        exact ⟨b :: blocks, rfl, rfl⟩
  · rintro ⟨blocks, rfl, rfl⟩
    rw [List.forall₂_map_left_iff, List.forall₂_map_right_iff, List.forall₂_same]
    intro b _
    exact b.isBlock

/-- A block is read wherever it stands. -/
theorem readOne_bytes (b : Block) (position : Nat) (rest : Bytes) :
    readOne position (b.bytes ++ rest) =
      .ok (b.toSection, position + b.bytes.length, rest) :=
  readOne_eq_ok_iff.mpr ⟨b.bytes, b.isBlock, rfl, rfl⟩

/-- Where a block ends, and what it is, does not depend on what follows. -/
theorem bytes_append_inj {b b' : Block} {rest rest' : Bytes}
    (h : b.bytes ++ rest = b'.bytes ++ rest') : b = b' ∧ rest = rest' := by
  have hread := readOne_bytes b 0 rest
  rw [h, readOne_bytes] at hread
  simp only [Except.ok.injEq, Prod.mk.injEq, toSection, Section.mk.injEq] at hread
  obtain ⟨⟨hname, hbody⟩, -, rfl⟩ := hread
  refine ⟨Block.ext hname.symm ?_ hbody.symm, rfl⟩
  have hbytes := List.append_cancel_right h
  unfold bytes at hbytes
  simpa [hname, hbody] using hbytes

/-- **Bytes are a row of blocks in one way at most.** -/
theorem join_injective : Function.Injective join := by
  intro blocks
  induction blocks with
  | nil =>
      intro blocks' h
      cases blocks' with
      | nil => rfl
      | cons b' blocks' => simp [join, bytes, pageBreak] at h
  | cons b blocks ih =>
      intro blocks' h
      cases blocks' with
      | nil => simp [join, bytes, pageBreak] at h
      | cons b' blocks' =>
          obtain ⟨rfl, hrest⟩ := bytes_append_inj h
          rw [ih hrest]

@[simp] theorem join_nil : join [] = [] := rfl

@[simp] theorem join_cons (b : Block) (blocks : List Block) :
    join (b :: blocks) = b.bytes ++ join blocks := rfl

@[simp] theorem join_append (front back : List Block) :
    join (front ++ back) = join front ++ join back :=
  List.flatMap_append

/-- A length that is written can be read, so it is below the limit. -/
theorem length_lt (b : Block) : b.body.length < Decimal.limit := by
  obtain ⟨-, -, -, -, -, -, -, hlimit⟩ := b.numeral_denotes
  exact hlimit

end Block

/-- Bytes are read as sections exactly if they are the blocks of these sections in a
row. -/
theorem readAll_eq_ok_iff_join {data : Bytes} {sections : List Section} :
    readAll data = .ok sections ↔
      ∃ blocks : List Block, data = Block.join blocks ∧ sections = blocks.map Block.toSection := by
  rw [readAll_eq_ok_iff]
  constructor
  · rintro ⟨pieces, hpieces, rfl⟩
    obtain ⟨blocks, rfl, rfl⟩ := Block.forall₂_isBlock_iff.mp hpieces
    exact ⟨blocks, rfl, rfl⟩
  · rintro ⟨blocks, rfl, rfl⟩
    exact ⟨blocks.map Block.bytes, Block.forall₂_isBlock_iff.mpr ⟨blocks, rfl, rfl⟩, rfl⟩

/-- **The grammar of tags files.** Bytes are read as sections exactly if they are the
blocks of these sections in a row, and no bytes are a row of blocks in two ways. -/
theorem readAll_grammar :
    (∀ (data : Bytes) (sections : List Section), readAll data = .ok sections ↔
        ∃ blocks : List Block, data = Block.join blocks ∧ sections = blocks.map Block.toSection) ∧
      Function.Injective Block.join :=
  ⟨fun _ _ => readAll_eq_ok_iff_join, Block.join_injective⟩

end Blocks

section Appending

/-- A fault that stands further on. -/
def shift (k : Nat) (fault : SectionFault × Nat) : SectionFault × Nat :=
  (fault.1, k + fault.2)

theorem readOne_shift (k position : Nat) (data : Bytes) :
    readOne (k + position) data =
      match readOne position data with
      | .error fault => .error (shift k fault)
      | .ok (s, position', rest) => .ok (s, k + position', rest) := by
  unfold readOne
  cases Bytes.stripFront pageBreak data with
  | none => rfl
  | some afterBreak =>
      dsimp only
      cases Bytes.cut Bytes.newline afterBreak with
      | none => rfl
      | some cut =>
          obtain ⟨header, rest⟩ := cut
          dsimp only
          cases readHeader header with
          | error fault => rfl
          | ok read =>
              obtain ⟨name, length⟩ := read
              dsimp only
              split
              · simp only [Nat.add_assoc]
              · simp only [shift, Nat.add_assoc]

/-- Data that starts further on has its faults further on. -/
theorem readMany_shift (fuel k position : Nat) (data : Bytes) :
    readMany fuel (k + position) data = (readMany fuel position data).mapError (shift k) := by
  induction fuel generalizing position data with
  | zero =>
      cases data with
      | nil => rfl
      | cons b data => rfl
  | succ fuel ih =>
      cases data with
      | nil => rfl
      | cons b data =>
          rw [readMany_succ_cons, readMany_succ_cons, readOne_shift]
          cases readOne position (b :: data) with
          | error fault => rfl
          | ok one =>
              obtain ⟨s, position', rest⟩ := one
              dsimp only
              rw [ih]
              cases readMany fuel position' rest with
              | error fault => rfl
              | ok sections => rfl

/-- Fuel that suffices for the data suffices as well as any other. -/
theorem readMany_eq_of_le {fuel fuel' : Nat} (position : Nat) {data : Bytes}
    (hfuel : data.length ≤ fuel) (hfuel' : data.length ≤ fuel') :
    readMany fuel position data = readMany fuel' position data := by
  induction fuel generalizing fuel' position data with
  | zero =>
      have hdata : data = [] := List.eq_nil_of_length_eq_zero (by omega)
      rw [hdata, readMany_nil, readMany_nil]
  | succ fuel ih =>
      cases data with
      | nil => rw [readMany_nil, readMany_nil]
      | cons b data =>
          obtain ⟨fuel', rfl⟩ : ∃ k, fuel' = k + 1 := Nat.exists_eq_succ_of_ne_zero (by
            rintro rfl
            simp at hfuel')
          rw [readMany_succ_cons, readMany_succ_cons]
          cases hone : readOne position (b :: data) with
          | error fault => rfl
          | ok one =>
              obtain ⟨s, position', rest⟩ := one
              -- a block is not empty, so what follows it is shorter
              obtain ⟨piece, hpiece, hdata, -⟩ := readOne_eq_ok_iff.mp hone
              have hpos : 0 < piece.length := List.length_pos_of_ne_nil hpiece.ne_nil
              have hlength := congrArg List.length hdata
              rw [List.length_append] at hlength
              have hrest : readMany fuel position' rest = readMany fuel' position' rest :=
                ih position' (by omega) (by omega)
              dsimp only
              rw [hrest]

theorem readMany_bytes_append (b : Block) {fuel : Nat} (position : Nat) {rest : Bytes}
    (hfuel : (b.bytes ++ rest).length ≤ fuel) :
    readMany fuel position (b.bytes ++ rest) =
      (readMany rest.length (position + b.bytes.length) rest).map (b.toSection :: ·) := by
  obtain ⟨first, data, hdata⟩ := List.exists_cons_of_ne_nil b.isBlock.ne_nil
  rw [List.length_append, hdata, List.length_cons] at hfuel
  obtain ⟨fuel, rfl⟩ : ∃ k, fuel = k + 1 := Nat.exists_eq_succ_of_ne_zero (by omega)
  have hone := Block.readOne_bytes b position rest
  rw [hdata, List.cons_append] at hone ⊢
  rw [readMany_succ_cons, hone]
  dsimp only
  rw [readMany_eq_of_le _ (by omega) (le_refl rest.length)]

/-- Blocks are read one by one, and then what follows them. -/
theorem readMany_join_append (blocks : List Block) {fuel : Nat} (position : Nat) {rest : Bytes}
    (hfuel : (Block.join blocks ++ rest).length ≤ fuel) :
    readMany fuel position (Block.join blocks ++ rest) =
      (readMany rest.length (position + (Block.join blocks).length) rest).map
        (blocks.map Block.toSection ++ ·) := by
  induction blocks generalizing fuel position with
  | nil =>
      rw [Block.join, List.flatMap_nil, List.nil_append] at hfuel ⊢
      rw [readMany_eq_of_le position hfuel (le_refl _), List.length_nil, Nat.add_zero]
      cases readMany rest.length position rest with
      | error fault => rfl
      | ok sections => rfl
  | cons b blocks ih =>
      have hjoin : Block.join (b :: blocks) = b.bytes ++ Block.join blocks := rfl
      rw [hjoin, List.append_assoc] at hfuel ⊢
      rw [readMany_bytes_append b position hfuel, ih _ (le_refl _), List.length_append,
        Nat.add_assoc]
      cases readMany rest.length _ rest with
      | error fault => rfl
      | ok sections => rfl

/-- **Appending.** What follows a file that can be read is read as if it stood alone:
its sections come after those of the file, and its fault stands as much further on as
the file is long. -/
theorem readAll_append {a : Bytes} {sections : List Section} (ha : readAll a = .ok sections)
    (b : Bytes) :
    match readAll b with
    | .ok more => readAll (a ++ b) = .ok (sections ++ more)
    | .error (.atByte fault position) =>
        readAll (a ++ b) = .error (.atByte fault (a.length + position))
    | .error (.reported _) => False := by
  obtain ⟨blocks, rfl, rfl⟩ := readAll_eq_ok_iff_join.mp ha
  have hread := readMany_join_append blocks 0 (le_refl (Block.join blocks ++ b).length)
  rw [Nat.zero_add, ← Nat.add_zero (Block.join blocks).length, readMany_shift] at hread
  rw [readAll, readAll, hread]
  cases readMany b.length 0 b with
  | error fault => rfl
  | ok more => rfl

/-- A file with a generous length, and after it a file, or a length past every end. -/
theorem readAll_append_generous :
    let a := Bytes.ascii "\x0c\na,+01\nx"
    let file := Bytes.ascii "\x0c\nb,0\n"
    let broken := Bytes.ascii "\x0c\nb,18446744073709551615\ny"
    readAll a = .ok [⟨"a", Bytes.ascii "x"⟩] ∧
      readAll (a ++ file) = .ok [⟨"a", Bytes.ascii "x"⟩, ⟨"b", []⟩] ∧
      readAll (a ++ broken) = .error (.atByte .pastEnd (a.length + 25)) := by
  intro a file broken
  have ha : readAll a = .ok [⟨"a", Bytes.ascii "x"⟩] := by decide
  have hfile : readAll file = .ok [⟨"b", []⟩] := by decide
  have hbroken : readAll broken = .error (.atByte .pastEnd 25) := by decide
  have hread := readAll_append ha file
  have hfault := readAll_append ha broken
  rw [hfile] at hread
  rw [hbroken] at hfault
  exact ⟨ha, hread, hfault⟩

end Appending

end Section
end GoTags
