import GoTags.Proofs.Cuts

/-!
# Reading by positions, and where it stops

The sections of a tags file can be read with a cursor: a position in the data, which goes
forward by lengths that the data itself claims. A sum that does not fit into a word and a
slice that is out of range are crashes there. This module gives that reader, in which both
can be seen, and shows that neither happens and that it finds what `readAll` finds.

Where reading stops is then described without the reader: by the longest front of the
data that is a tags file.

**Input.** Any bytes, fewer than `2 ^ 63`.

**Algorithm.** Rounds, as long as the cursor is before the end of the data. A round reads
the section at the cursor and moves the cursor behind it.

**Results.**
* `round_eq`, `rounds_eq`: one round, and all of them, without a crash.
* `exists_join_append`: every byte string is a row of blocks and a rest that no block
  leads.
* `isGreatest_accepted`: the row is the longest front that is a tags file.
* `faultAt_of_readOne_error`: where the faults of a section stand.
* `readAll_crash_free_and_placed`: no crash, and the places of all faults.
-/

namespace GoTags

theorem Bytes.findIdx?_eq_cut (sep : UInt8) (bytes : Bytes) :
    bytes.findIdx? (· == sep) = (cut sep bytes).map fun parts => parts.1.length := by
  induction bytes with
  | nil => rfl
  | cons b rest ih =>
      rw [List.findIdx?_cons, cut, ih]
      by_cases h : b = sep
      · simp [h]
      · simp [h, Function.comp_def]

namespace Section

section Fronts

/-- What a byte string can start with, as far as a section is concerned. -/
inductive Front : Bytes → Prop
  | noBreak {rest : Bytes} (h : Bytes.stripFront pageBreak rest = none) : Front rest
  | noLine {ahead : Bytes} (h : Bytes.cut Bytes.newline ahead = none) :
      Front (pageBreak ++ ahead)
  | line {header : Bytes} (body : Bytes) (h : Bytes.newline ∉ header) :
      Front (pageBreak ++ (header ++ Bytes.newline :: body))

theorem front_cases (rest : Bytes) : Front rest := by
  cases hbreak : Bytes.stripFront pageBreak rest with
  | none => exact .noBreak hbreak
  | some ahead =>
      rw [Bytes.stripFront_eq_some_iff] at hbreak
      subst hbreak
      cases hcut : Bytes.cut Bytes.newline ahead with
      | none => exact .noLine hcut
      | some parts =>
          obtain ⟨header, body⟩ := parts
          obtain ⟨rfl, hheader⟩ := Bytes.cut_eq_some_iff.mp hcut
          exact .line body hheader

/-- What a header line and the bytes after it give, where `start` is the position after the
page break. -/
def ofLine (start : Nat) (header body : Bytes) :
    Except (SectionFault × Nat) (Section × Nat × Bytes) :=
  match readHeader header with
  | .error fault => .error (fault, start)
  | .ok (name, length) =>
      if length ≤ body.length then
        .ok (⟨name, body.take length⟩, start + header.length + 1 + length, body.drop length)
      else .error (.pastEnd, start + header.length + 1)

theorem readOne_of_noBreak {rest : Bytes} (h : Bytes.stripFront pageBreak rest = none)
    (position : Nat) : readOne position rest = .error (.noPageBreak, position) := by
  rw [readOne, h]

theorem readOne_of_noLine {ahead : Bytes} (h : Bytes.cut Bytes.newline ahead = none)
    (position : Nat) :
    readOne position (pageBreak ++ ahead) = .error (.unterminatedHeader, position + 2) := by
  rw [readOne, Bytes.stripFront_eq_some_iff.mpr rfl]
  dsimp only
  rw [h]

theorem readOne_of_line {header : Bytes} (h : Bytes.newline ∉ header) (position : Nat)
    (body : Bytes) :
    readOne position (pageBreak ++ (header ++ Bytes.newline :: body)) =
      ofLine (position + 2) header body := by
  rw [readOne, Bytes.stripFront_eq_some_iff.mpr rfl]
  dsimp only
  rw [Bytes.cut_eq_some_iff.mpr ⟨rfl, h⟩]
  rfl

end Fronts

namespace Cursor

section Defs

/-- The sum of two positions, if it fits into a word. -/
def add? (a b : Nat) : Option Nat :=
  if a + b < Decimal.limit then some (a + b) else none

/-- The bytes from one position up to another, if there are such. -/
def slice? (data : Bytes) (start stop : Nat) : Option Bytes :=
  if start ≤ stop ∧ stop ≤ data.length then some ((data.drop start).take (stop - start))
  else none

/-- Reads the section behind a page break whose header line has a given width, and gives it
with the position behind it. -/
def lineRound (data : Bytes) (afterBreak width : Nat) :
    Option (Except (SectionFault × Nat) (Section × Nat)) := do
  let headerEnd ← add? afterBreak width
  let header ← slice? data afterBreak headerEnd
  match readHeader header with
  | .error fault => some (.error (fault, afterBreak))
  | .ok (name, length) =>
      let start ← add? headerEnd 1
      -- the one sum and the one slice that may fail: the length is only claimed
      match (add? start length).bind (slice? data start) with
      | none => some (.error (.pastEnd, start))
      | some body =>
          let next ← add? start length
          some (.ok (⟨name, body⟩, next))

/-- Reads the section at the cursor, and gives it with the position behind it. There is
no result if the round crashes. -/
def round (data : Bytes) (cursor : Nat) :
    Option (Except (SectionFault × Nat) (Section × Nat)) := do
  let afterBreak ← add? cursor 2
  if slice? data cursor afterBreak = some pageBreak then
    let ahead ← slice? data afterBreak data.length
    match ahead.findIdx? (· == Bytes.newline) with
    | none => some (.error (.unterminatedHeader, afterBreak))
    | some width => lineRound data afterBreak width
  else some (.error (.noPageBreak, cursor))

/-- So many rounds, or fewer if the end of the data is reached before. There is no result
if a round crashes or they do not suffice. -/
def rounds (data : Bytes) : Nat → Nat → Option (Except (SectionFault × Nat) (List Section))
  | 0, cursor => if cursor < data.length then none else some (.ok [])
  | fuel + 1, cursor =>
      if cursor < data.length then
        match round data cursor with
        | none => none
        | some (.error fault) => some (.error fault)
        | some (.ok (s, next)) => (rounds data fuel next).map fun found => found.map (s :: ·)
      else some (.ok [])

/-- Reads the sections of a tags file with a cursor, in at most as many rounds as there are
bytes. -/
def read (data : Bytes) : Option (Except Malformed (List Section)) :=
  (rounds data data.length 0).map fun found =>
    found.mapError fun (fault, position) => .atByte fault position

end Defs

section Slices

theorem add?_of_lt {a b : Nat} (h : a + b < 2 ^ 64) : add? a b = some (a + b) :=
  if_pos h

theorem slice?_eq_some_iff {data piece : Bytes} {start stop : Nat} :
    slice? data start stop = some piece ↔
      ∃ before after, data = before ++ (piece ++ after) ∧ before.length = start ∧
        start + piece.length = stop := by
  unfold slice?
  constructor
  · intro h
    split at h
    · rename_i hrange
      obtain rfl := Option.some.inj h
      refine ⟨data.take start, (data.drop start).drop (stop - start), ?_, ?_, ?_⟩
      · rw [List.take_append_drop, List.take_append_drop]
      · exact List.length_take_of_le (by omega)
      · rw [List.length_take, List.length_drop]
        omega
    · cases h
  · rintro ⟨before, after, rfl, rfl, rfl⟩
    have hrange : before.length ≤ before.length + piece.length ∧
        before.length + piece.length ≤ (before ++ (piece ++ after)).length := by
      simp only [List.length_append]
      omega
    rw [if_pos hrange, List.drop_left, Nat.add_sub_cancel_left, List.take_left]

/-- A claimed length is checked against the bytes that are there, whether or not the
position that it leads to fits into a word. -/
theorem claimed_eq (before rest : Bytes) (length : Nat)
    (hsize : (before ++ rest).length < 2 ^ 64) :
    (add? before.length length).bind (slice? (before ++ rest) before.length) =
      if length ≤ rest.length then some (rest.take length) else none := by
  rw [List.length_append] at hsize
  split
  · rename_i hfits
    rw [add?_of_lt (by omega), Option.bind_some, slice?_eq_some_iff]
    refine ⟨before, rest.drop length, ?_, rfl, ?_⟩
    · rw [List.take_append_drop]
    · rw [List.length_take_of_le hfits]
  · rename_i hfits
    rw [Option.bind_eq_none_iff]
    intro stop hstop
    obtain ⟨-, rfl⟩ : before.length + length < Decimal.limit ∧ before.length + length = stop := by
      simpa [add?] using hstop
    refine if_neg ?_
    rw [List.length_append]
    omega

end Slices

section Rounds

variable {before : Bytes}

theorem round_of_noBreak {rest : Bytes} (h : Bytes.stripFront pageBreak rest = none)
    (hsize : (before ++ rest).length < 2 ^ 63) :
    round (before ++ rest) before.length = some (.error (.noPageBreak, before.length)) := by
  rw [List.length_append] at hsize
  have hslice : slice? (before ++ rest) before.length (before.length + 2) ≠ some pageBreak := by
    intro hbreak
    obtain ⟨front, after, hdata, hfront, -⟩ := slice?_eq_some_iff.mp hbreak
    obtain ⟨-, rfl⟩ := List.append_inj hdata hfront.symm
    rw [Bytes.stripFront_eq_some_iff.mpr rfl] at h
    cases h
  rw [round, add?_of_lt (by omega), Option.bind_eq_bind, Option.bind_some, if_neg hslice]

/-- Behind a page break the round looks for the end of the line. -/
theorem round_of_break {ahead : Bytes}
    (hsize : (before ++ (pageBreak ++ ahead)).length < 2 ^ 63) :
    round (before ++ (pageBreak ++ ahead)) before.length =
      match (Bytes.cut Bytes.newline ahead).map fun parts => parts.1.length with
      | none => some (.error (.unterminatedHeader, before.length + 2))
      | some width => lineRound (before ++ (pageBreak ++ ahead)) (before.length + 2) width := by
  have hbreak : slice? (before ++ (pageBreak ++ ahead)) before.length (before.length + 2) =
      some pageBreak := slice?_eq_some_iff.mpr ⟨before, ahead, rfl, rfl, rfl⟩
  have hahead : slice? (before ++ (pageBreak ++ ahead)) (before.length + 2)
      (before ++ (pageBreak ++ ahead)).length = some ahead := by
    refine slice?_eq_some_iff.mpr ⟨before ++ pageBreak, [], by simp, by simp [pageBreak], ?_⟩
    simp only [List.length_append, pageBreak, List.length_cons, List.length_nil]
    omega
  rw [List.length_append] at hsize
  rw [round, add?_of_lt (by omega), Option.bind_eq_bind, Option.bind_some, if_pos hbreak, hahead,
    Option.bind_eq_bind, Option.bind_some, Bytes.findIdx?_eq_cut]

theorem lineRound_eq {header body : Bytes}
    (hsize : (before ++ (pageBreak ++ (header ++ Bytes.newline :: body))).length < 2 ^ 63) :
    lineRound (before ++ (pageBreak ++ (header ++ Bytes.newline :: body))) (before.length + 2)
        header.length =
      some ((ofLine (before.length + 2) header body).map fun (s, next, _) => (s, next)) := by
  have hheader : slice? (before ++ (pageBreak ++ (header ++ Bytes.newline :: body)))
      (before.length + 2) (before.length + 2 + header.length) = some header :=
    slice?_eq_some_iff.mpr
      ⟨before ++ pageBreak, Bytes.newline :: body, by simp, by simp [pageBreak], rfl⟩
  -- what stands before the body, so that the claimed length is checked against the body
  have hfront : before ++ (pageBreak ++ (header ++ Bytes.newline :: body)) =
      (before ++ (pageBreak ++ (header ++ [Bytes.newline]))) ++ body := by simp
  have hstart : (before ++ (pageBreak ++ (header ++ [Bytes.newline]))).length =
      before.length + 2 + header.length + 1 := by
    simp only [List.length_append, pageBreak, List.length_cons, List.length_nil]
    omega
  have hclaimed := fun length => claimed_eq _ body length
    (by rw [← hfront]; omega)
  rw [← hfront, hstart] at hclaimed
  rw [hfront, List.length_append, hstart] at hsize
  rw [lineRound, ofLine, add?_of_lt (by omega), Option.bind_eq_bind, Option.bind_some, hheader,
    Option.bind_eq_bind, Option.bind_some]
  cases readHeader header with
  | error fault => rfl
  | ok read =>
      obtain ⟨name, length⟩ := read
      dsimp only
      rw [add?_of_lt (by omega), Option.bind_some, hclaimed]
      by_cases hfits : length ≤ body.length
      · rw [if_pos hfits, if_pos hfits]
        dsimp only
        rw [add?_of_lt (by omega)]
        rfl
      · rw [if_neg hfits, if_neg hfits]
        rfl

/-- **One round.** With the cursor in range nothing crashes, and what stands at the cursor
is read. -/
theorem round_eq {rest : Bytes} (hsize : (before ++ rest).length < 2 ^ 63) :
    round (before ++ rest) before.length =
      some ((readOne before.length rest).map fun (s, next, _) => (s, next)) := by
  cases front_cases rest with
  | noBreak h =>
      rw [round_of_noBreak h hsize, readOne_of_noBreak h]
      rfl
  | @noLine ahead h =>
      rw [round_of_break hsize, readOne_of_noLine h, h]
      rfl
  | @line header body h =>
      rw [round_of_break hsize, readOne_of_line h, Bytes.cut_eq_some_iff.mpr ⟨rfl, h⟩,
        Option.map_some]
      exact lineRound_eq hsize

/-- **All rounds.** As many rounds as there are bytes ahead suffice, and nothing crashes. -/
theorem rounds_eq {fuel : Nat} {rest : Bytes} (hsize : (before ++ rest).length < 2 ^ 63)
    (hfuel : rest.length ≤ fuel) :
    rounds (before ++ rest) fuel before.length = some (readMany fuel before.length rest) := by
  induction fuel generalizing before rest with
  | zero =>
      have hrest : rest = [] := List.eq_nil_of_length_eq_zero (by omega)
      subst hrest
      simp [rounds, readMany_nil]
  | succ fuel ih =>
      cases rest with
      | nil => simp [rounds, readMany_nil]
      | cons b rest =>
          have hbefore : before.length < (before ++ b :: rest).length := by simp
          rw [rounds, if_pos hbefore, round_eq hsize, readMany_succ_cons]
          cases hone : readOne before.length (b :: rest) with
          | error fault => rfl
          | ok one =>
              obtain ⟨s, next, rest'⟩ := one
              -- the cursor moves behind a block, which is not empty
              obtain ⟨block, hblock, hdata, rfl⟩ := readOne_eq_ok_iff.mp hone
              have hpos : 0 < block.length := List.length_pos_of_ne_nil hblock.ne_nil
              have hlength := congrArg List.length hdata
              rw [List.length_append] at hlength
              rw [hdata, ← List.append_assoc] at hsize ⊢
              have hrounds := ih hsize (by omega)
              rw [List.length_append] at hrounds
              simp only [Except.map, hrounds, Option.map_some]

/-- The cursor finds what `readAll` finds. -/
theorem read_eq {data : Bytes} (hsize : data.length < 2 ^ 63) :
    read data = some (readAll data) := by
  have hrounds := @rounds_eq [] data.length data hsize le_rfl
  rw [List.nil_append, List.length_nil] at hrounds
  rw [read, hrounds]
  rfl

end Rounds

end Cursor

section Stopping

/-- Where the faults of a section stand that starts at `q`, in front of `rest`. -/
def FaultAt (q : Nat) (rest : Bytes) : SectionFault → Nat → Prop
  | .noPageBreak, p => p = q
  | .unterminatedHeader, p => p = q + 2
  | .headerNotText, p => p = q + 2
  | .noLength, p => p = q + 2
  | .lengthNotANumber, p => p = q + 2
  | .pastEnd, p => ∃ header body, rest = pageBreak ++ (header ++ Bytes.newline :: body) ∧
      Bytes.newline ∉ header ∧ p = q + 2 + header.length + 1

/-- Every byte string is a row of blocks and a rest at which no section can be read. -/
theorem exists_join_append (data : Bytes) :
    ∃ (blocks : List Block) (rest : Bytes) (fault : SectionFault × Nat),
      data = Block.join blocks ++ rest ∧ readOne 0 rest = .error fault := by
  induction hn : data.length using Nat.strong_induction_on generalizing data with
  | _ n ih =>
      cases hone : readOne 0 data with
      | error fault => exact ⟨[], data, fault, rfl, hone⟩
      | ok one =>
          obtain ⟨s, next, rest⟩ := one
          obtain ⟨piece, hpiece, rfl, -⟩ := readOne_eq_ok_iff.mp hone
          obtain ⟨b, -, rfl⟩ := Block.exists_of_isBlock hpiece
          have hpos := b.length_bytes_pos
          rw [List.length_append] at hn
          obtain ⟨blocks, rest, fault, rfl, hfault⟩ := ih rest.length (by omega) rest rfl
          exact ⟨b :: blocks, rest, fault, by simp, hfault⟩

/-- A row of blocks is the longest front that is a tags file, if no section can be read
behind it. -/
theorem isGreatest_accepted (blocks : List Block) {rest : Bytes} {fault : SectionFault × Nat}
    (h : readOne 0 rest = .error fault) :
    IsGreatest (accepted (Block.join blocks ++ rest)) (Block.join blocks).length := by
  constructor
  · exact (mem_accepted_iff blocks h).mpr ⟨blocks, [], (List.append_nil blocks).symm, rfl⟩
  · intro k hk
    obtain ⟨front, back, rfl, rfl⟩ := (mem_accepted_iff blocks h).mp hk
    simp

theorem readHeader_error {header : Bytes} {fault : SectionFault}
    (h : readHeader header = .error fault) :
    fault = .headerNotText ∨ fault = .noLength ∨ fault = .lengthNotANumber := by
  unfold readHeader at h
  split at h
  · cases h
    exact Or.inl rfl
  · split at h
    · cases h
      exact Or.inr (Or.inl rfl)
    · split at h
      · cases h
        exact Or.inr (Or.inr rfl)
      · cases h

/-- A fault stands at the start of its section, behind the page break or behind the header
line, and never behind the data. -/
theorem faultAt_of_readOne_error {q p : Nat} {rest : Bytes} {fault : SectionFault}
    (h : readOne q rest = .error (fault, p)) :
    FaultAt q rest fault p ∧ q ≤ p ∧ p ≤ q + rest.length := by
  have hbreak : pageBreak.length = 2 := rfl
  cases front_cases rest with
  | noBreak hrest =>
      rw [readOne_of_noBreak hrest] at h
      cases h
      exact ⟨rfl, by omega, by omega⟩
  | @noLine ahead hahead =>
      rw [readOne_of_noLine hahead] at h
      cases h
      rw [List.length_append]
      exact ⟨rfl, by omega, by omega⟩
  | @line header body hheader =>
      rw [readOne_of_line hheader, ofLine] at h
      rw [List.length_append, List.length_append, List.length_cons]
      cases hread : readHeader header with
      | error fault' =>
          rw [hread] at h
          cases h
          refine ⟨?_, by omega, by omega⟩
          obtain rfl | rfl | rfl := readHeader_error hread <;> rfl
      | ok read =>
          obtain ⟨name, length⟩ := read
          rw [hread] at h
          dsimp only at h
          split at h
          · cases h
          · cases h
            exact ⟨⟨header, body, rfl, hheader, rfl⟩, by omega, by omega⟩

/-- Behind a row of blocks, the fault of what follows is reported, with its place in the
whole data. -/
theorem readAll_join_append {rest : Bytes} (blocks : List Block) (hrest : rest ≠ [])
    {fault : SectionFault × Nat} (h : readOne 0 rest = .error fault) :
    readAll (Block.join blocks ++ rest) =
      .error (.atByte fault.1 ((Block.join blocks).length + fault.2)) := by
  have hread := readMany_join_append blocks 0 (le_refl (Block.join blocks ++ rest).length)
  rw [Nat.zero_add, ← Nat.add_zero (Block.join blocks).length, readMany_shift] at hread
  obtain ⟨b, rest, rfl⟩ := List.exists_cons_of_ne_nil hrest
  rw [List.length_cons, readMany_succ_cons, h] at hread
  rw [readAll, hread]
  rfl

/-- **Reading never crashes, and faults are where they are said to be.** The cursor finds
what `readAll` finds, in at most as many rounds as there are bytes, whatever lengths are
claimed. If that is a fault, let `q` be the length of the longest front that is a tags
file: then the fault stands at `q`, two bytes behind it, or behind the header line there, as
its kind says, and not behind the data. -/
theorem readAll_crash_free_and_placed (data : Bytes) (hsize : data.length < 2 ^ 63) :
    Cursor.read data = some (readAll data) ∧
      match readAll data with
      | .ok _ => True
      | .error (.reported _) => False
      | .error (.atByte fault p) =>
          ∃ q, IsGreatest (accepted data) q ∧ FaultAt q (data.drop q) fault p ∧
            q ≤ p ∧ p ≤ data.length := by
  refine ⟨Cursor.read_eq hsize, ?_⟩
  obtain ⟨blocks, rest, ⟨fault, p⟩, rfl, hfault⟩ := exists_join_append data
  by_cases hrest : rest = []
  · rw [hrest, List.append_nil, readAll_join]
    trivial
  · rw [readAll_join_append blocks hrest hfault]
    have hshift := readOne_shift (Block.join blocks).length 0 rest
    rw [hfault, Nat.add_zero] at hshift
    refine ⟨(Block.join blocks).length, isGreatest_accepted blocks hfault, ?_⟩
    rw [List.drop_left, List.length_append]
    exact faultAt_of_readOne_error hshift

/-- A section, and then a length that leads past every end. -/
theorem readAll_crash_free_and_placed_far :
    let data := Bytes.ascii "\x0c\na,1\nx\x0c\nb,18446744073709551615\ny"
    data.length < 2 ^ 63 ∧ Cursor.read data = some (.error (.atByte .pastEnd 32)) ∧
      ∃ q, IsGreatest (accepted data) q ∧ FaultAt q (data.drop q) .pastEnd 32 ∧
        q ≤ 32 ∧ 32 ≤ data.length := by
  intro data
  have hsize : data.length < 2 ^ 63 := by decide
  have hread : readAll data = .error (.atByte .pastEnd 32) := by decide
  obtain ⟨hcursor, hplaced⟩ := readAll_crash_free_and_placed data hsize
  rw [hread] at hcursor hplaced
  exact ⟨hsize, hcursor, hplaced⟩

end Stopping

end Section
end GoTags
