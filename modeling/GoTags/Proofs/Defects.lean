import GoTags.Proofs.Renaming
import GoTags.Proofs.WholeLines
import Mathlib.Data.List.TakeWhile

/-!
# Where a content stops being text

A source is refused at its first defect, given by line and column of the whole content. A
source of lines refuses the line with the defect, given by the place on that line.

**Input.** The content of a Go source that can be read.

**Algorithm.** One side looks for a defect first and for newlines then, the other cuts at
newlines first and looks for a defect in one line. A newline that cuts a character off ends
it in both, though as another kind of defect.

**Results.**
* `isGreatest_validUpTo`: what precedes a defect is the longest front that is text.
* `validUpTo_append_ascii`, `defect?_append_of_isText`: defects before and after an ASCII
  byte are those of the parts.
* `defectPosition?_eq_some_iff`: the first defect of a content is that of the first line with
  one.
* `defect_located_alike`: a source is refused at a line and a column exactly if its lines
  are had up to that line, and this one is refused at that column.
-/

namespace GoTags

namespace Utf8

section Fronts

/-- A defect that is found so many bytes further on. -/
def Defect.shift (n : Nat) (d : Defect) : Defect :=
  { d with validUpTo := n + d.validUpTo }

theorem defectFrom_add (n offset : Nat) (ps : List Piece) :
    defectFrom (n + offset) ps = (defectFrom offset ps).map (Defect.shift n) := by
  induction ps generalizing offset with
  | nil => rfl
  | cons p ps ih =>
      cases p with
      | char c =>
          rw [defectFrom, defectFrom, Nat.add_assoc]
          exact ih (offset + c.utf8Size)
      | invalid n => rfl
      | incomplete n => rfl

theorem defect?_spells_append {front : Bytes} {n : Nat} (h : Spells front n) (rest : Bytes) :
    defect? (front ++ rest) = (defect? rest).map (Defect.shift front.length) := by
  have hsize : (Char.ofNat n).utf8Size = front.length := by
    rw [← String.length_utf8EncodeChar, h.encode]
  rw [defect?, pieces, piecesFrom_spells h, defectFrom, hsize, Nat.zero_add, ← Nat.add_zero
    front.length, defectFrom_add]
  rfl

/-- A text in front moves a defect on. -/
theorem defect?_append_of_isText {front : Bytes} (h : IsText front) (rest : Bytes) :
    defect? (front ++ rest) = (defect? rest).map (Defect.shift front.length) := by
  obtain ⟨cs, rfl⟩ := isText_iff.mp h
  clear h
  induction cs with
  | nil =>
      have hshift : Defect.shift 0 = id := by
        funext d
        simp [Defect.shift]
      simp [hshift]
  | cons c cs ih =>
      have hshift (d : Defect) (m n : Nat) : (d.shift n).shift m = d.shift (m + n) := by
        simp [Defect.shift, Nat.add_assoc]
      rw [List.flatMap_cons, List.append_assoc, defect?_spells_append (spells_utf8EncodeChar c), ih,
        Option.map_map, List.length_append]
      congr 1
      funext d
      exact hshift d _ _

theorem isText_append_iff {front : Bytes} (h : IsText front) (rest : Bytes) :
    IsText (front ++ rest) ↔ IsText rest := by
  rw [← defect?_eq_none_iff, ← defect?_eq_none_iff, defect?_append_of_isText h,
    Option.map_eq_none_iff]

/-- Bytes start with a character, or with a defect, or there are none. -/
theorem front_cases (bytes : Bytes) :
    bytes = [] ∨ (∃ front rest n, bytes = front ++ rest ∧ Spells front n) ∨
      ∃ width, defect? bytes = some ⟨0, width⟩ := by
  cases hpieces : piecesFrom none bytes with
  | nil =>
      cases bytes with
      | nil => exact Or.inl rfl
      | cons b rest => exact absurd hpieces (piecesFrom_cons_ne_nil b rest)
  | cons p ps =>
      right
      cases p with
      | char c =>
          obtain ⟨front, rest, n, hbytes, hfront, -⟩ := spells_of_piecesFrom hpieces
          exact Or.inl ⟨front, rest, n, hbytes, hfront⟩
      | invalid width => exact Or.inr ⟨some width, by rw [defect?, pieces, hpieces]; rfl⟩
      | incomplete width => exact Or.inr ⟨none, by rw [defect?, pieces, hpieces]; rfl⟩

theorem Spells.length_pos {front : Bytes} {n : Nat} (h : Spells front n) : 0 < front.length := by
  cases h <;> simp

/-- What precedes the first defect is the longest front that is text. -/
theorem isGreatest_validUpTo {bytes : Bytes} {d : Defect} (h : defect? bytes = some d) :
    IsGreatest {k | IsText (bytes.take k)} d.validUpTo := by
  rcases front_cases bytes with rfl | ⟨front, rest, n, hbytes, hfront⟩ | ⟨width, hdefect⟩
  · cases h
  · have htext : IsText front := ⟨String.ofList [Char.ofNat n], by simp [encode, hfront.encode]⟩
    have hlength : rest.length < bytes.length := by
      have hpos := hfront.length_pos
      rw [hbytes, List.length_append]
      omega
    rw [hbytes, defect?_append_of_isText htext] at h
    obtain ⟨d', hrest, rfl⟩ := Option.map_eq_some_iff.mp h
    obtain ⟨hmem, hupper⟩ := isGreatest_validUpTo hrest
    rw [hbytes]
    refine ⟨?_, ?_⟩
    · show IsText ((front ++ rest).take (front.length + d'.validUpTo))
      rw [List.take_length_add_append, isText_append_iff htext]
      exact hmem
    · intro k hk
      show k ≤ front.length + d'.validUpTo
      by_cases hle : front.length ≤ k
      · obtain ⟨m, rfl⟩ := Nat.exists_eq_add_of_le hle
        have hk' : IsText ((front ++ rest).take (front.length + m)) := hk
        rw [List.take_length_add_append, isText_append_iff htext] at hk'
        have hm := hupper hk'
        omega
      · omega
  · rw [hdefect] at h
    cases h
    refine ⟨⟨"", by simp; rfl⟩, ?_⟩
    -- a longer front would start with a character, and so would the bytes
    intro k hk
    rw [Set.mem_ofPred_eq] at hk
    rcases front_cases (bytes.take k) with hnil | ⟨front, rest, n, hfront, hspells⟩ | ⟨width', hbad⟩
    · rcases List.take_eq_nil_iff.mp hnil with rfl | rfl
      · exact le_rfl
      · cases hdefect
    · have hbytes : bytes = front ++ (rest ++ bytes.drop k) := by
        rw [← List.append_assoc, ← hfront, List.take_append_drop]
      rw [hbytes, defect?_spells_append hspells] at hdefect
      obtain ⟨d, -, hd⟩ := Option.map_eq_some_iff.mp hdefect
      have hzero : front.length + d.validUpTo = 0 := congrArg Defect.validUpTo hd
      have hpos := hspells.length_pos
      omega
    · rw [defect?_eq_none_iff.mpr hk] at hbad
      cases hbad
termination_by bytes.length

theorem validUpTo_lt {bytes : Bytes} {d : Defect} (h : defect? bytes = some d) :
    d.validUpTo < bytes.length := by
  by_contra hle
  have hmem : IsText (bytes.take d.validUpTo) := (isGreatest_validUpTo h).1
  rw [List.take_of_length_le (Nat.not_lt.mp hle)] at hmem
  rw [defect?_eq_none_iff.mpr hmem] at h
  cases h

/-- A defect before an ASCII byte starts where it does without what follows. -/
theorem validUpTo_append_ascii {x : UInt8} (hx : x.toNat < 0x80) {left : Bytes} {d : Defect}
    (h : defect? left = some d) (right : Bytes) :
    ∃ d', defect? (left ++ x :: right) = some d' ∧ d'.validUpTo = d.validUpTo := by
  have hleft : ¬IsText left := by
    intro htext
    rw [defect?_eq_none_iff.mpr htext] at h
    cases h
  have hsome : defect? (left ++ x :: right) ≠ none := by
    rw [Ne, defect?_eq_none_iff, isText_append_ascii hx]
    exact fun htext => hleft htext.1
  obtain ⟨d', hd'⟩ := Option.ne_none_iff_exists'.mp hsome
  refine ⟨d', hd', (isGreatest_validUpTo hd').unique ?_⟩
  obtain ⟨hmem, hupper⟩ := isGreatest_validUpTo h
  have htake : ∀ k ≤ left.length, (left ++ x :: right).take k = left.take k :=
    fun k hk => List.take_append_of_le_length hk
  refine ⟨?_, ?_⟩
  · rw [Set.mem_ofPred_eq, htake _ (validUpTo_lt h).le]
    exact hmem
  · intro k hk
    rw [Set.mem_ofPred_eq] at hk
    by_cases hle : k ≤ left.length
    · rw [htake k hle] at hk
      exact hupper hk
    · -- a front beyond the byte has all of the left part in it
      obtain ⟨m, rfl⟩ := Nat.exists_eq_add_of_lt (Nat.not_le.mp hle)
      rw [Nat.add_assoc, List.take_length_add_append, List.take_succ_cons,
        isText_append_ascii hx] at hk
      exact absurd hk.1 hleft

end Fronts

end Utf8

namespace Lines

section Positions

theorem tailWidth_of_not_mem {bytes : Bytes} (h : Bytes.newline ∉ bytes) :
    tailWidth bytes = bytes.length := by
  have hall : bytes.reverse.takeWhile (· ≠ Bytes.newline) = bytes.reverse := by
    rw [List.takeWhile_eq_self_iff]
    intro b hb
    rw [decide_eq_true_iff]
    rintro rfl
    exact h (List.mem_reverse.mp hb)
  rw [tailWidth, hall, List.length_reverse]

theorem tailWidth_append (before after : Bytes) :
    tailWidth (before ++ Bytes.newline :: after) = tailWidth after := by
  rw [tailWidth, tailWidth, List.reverse_append, List.reverse_cons, List.append_assoc,
    List.singleton_append, List.takeWhile_append]
  split
  · rename_i hlength
    rw [List.takeWhile_cons_of_neg (by simp), List.append_nil, hlength]
  · rfl

/-- A place before the first newline is on the first line. -/
theorem positionOf_of_not_mem {line : Bytes} (h : Bytes.newline ∉ line) {offset : Nat}
    (hoffset : offset ≤ line.length) (rest : Bytes) :
    positionOf (line ++ rest) offset = (1, offset + 1) := by
  have hfront : Bytes.newline ∉ line.take offset := fun hmem => h (List.mem_of_mem_take hmem)
  rw [positionOf, numberAt, List.take_append_of_le_length hoffset, List.count_eq_zero.mpr hfront,
    tailWidth_of_not_mem hfront, List.length_take, Nat.min_eq_left hoffset]

/-- A place after the first newline is one line further down than in the rest. -/
theorem positionOf_append {line : Bytes} (h : Bytes.newline ∉ line) (rest : Bytes)
    (offset : Nat) :
    positionOf (line ++ Bytes.newline :: rest) (line.length + 1 + offset) =
      ((positionOf rest offset).1 + 1, (positionOf rest offset).2) := by
  have htake : (line ++ Bytes.newline :: rest).take (line.length + 1 + offset) =
      line ++ Bytes.newline :: rest.take offset := by
    rw [Nat.add_assoc, List.take_length_add_append, Nat.add_comm 1, List.take_succ_cons]
  simp only [positionOf, numberAt, htake, tailWidth_append, List.count_append,
    List.count_eq_zero.mpr h, List.count_cons_self, Nat.zero_add]

end Positions

section FirstDefects

/-- The line and the column of the first defect of a content. -/
def defectPosition? (content : Bytes) : Option (Nat × Nat) :=
  (Utf8.defect? content).map fun d => positionOf content d.validUpTo

/-- Of some lines, those above a line are text, and this one has its first defect in a
column. -/
structure FirstDefect (lines : List Bytes) (above column : Nat) : Prop where
  text_above : ∀ line ∈ lines.take above, Utf8.IsText line
  defect_at : ∃ line d, lines[above]? = some line ∧ Utf8.defect? line = some d ∧
    d.validUpTo + 1 = column

variable {line : Bytes} {d : Utf8.Defect}

theorem not_firstDefect_nil (above column : Nat) : ¬FirstDefect [] above column := by
  rintro ⟨-, line, d, hline, -⟩
  cases hline

theorem firstDefect_cons_of_defect (h : Utf8.defect? line = some d) (lines : List Bytes)
    (above column : Nat) :
    FirstDefect (line :: lines) above column ↔ above = 0 ∧ d.validUpTo + 1 = column := by
  cases above with
  | zero =>
      constructor
      · rintro ⟨-, _, d', hline, hd', hcolumn⟩
        cases hline
        rw [h, Option.some.injEq] at hd'
        exact ⟨rfl, hd' ▸ hcolumn⟩
      · rintro ⟨-, hcolumn⟩
        exact ⟨by simp, line, d, rfl, h, hcolumn⟩
  | succ above =>
      constructor
      · rintro ⟨htext, -⟩
        have hline : Utf8.IsText line := htext line (by simp)
        rw [Utf8.defect?_eq_none_iff.mpr hline] at h
        cases h
      · rintro ⟨habove, -⟩
        omega

theorem firstDefect_cons_of_isText (h : Utf8.IsText line) (lines : List Bytes)
    (above column : Nat) :
    FirstDefect (line :: lines) above column ↔
      ∃ k, above = k + 1 ∧ FirstDefect lines k column := by
  cases above with
  | zero =>
      constructor
      · rintro ⟨-, _, d, hline, hd, -⟩
        cases hline
        rw [Utf8.defect?_eq_none_iff.mpr h] at hd
        cases hd
      · rintro ⟨k, hk, -⟩
        omega
  | succ above =>
      constructor
      · rintro ⟨htext, line', d, hline, hd, hcolumn⟩
        rw [List.take_succ_cons, List.forall_mem_cons] at htext
        exact ⟨above, rfl, htext.2, line', d, hline, hd, hcolumn⟩
      · rintro ⟨k, hk, htext, line', d, hline, hd, hcolumn⟩
        cases hk
        refine ⟨?_, line', d, hline, hd, hcolumn⟩
        rw [List.take_succ_cons, List.forall_mem_cons]
        exact ⟨h, htext⟩

theorem number_pos {content : Bytes} {number column : Nat}
    (h : defectPosition? content = some (number, column)) : ∃ k, number = k + 1 := by
  obtain ⟨d, -, hposition⟩ := Option.map_eq_some_iff.mp h
  exact ⟨_, (congrArg Prod.fst hposition).symm⟩

theorem defectPosition?_of_isText {content : Bytes} (h : Utf8.IsText content) :
    defectPosition? content = none := by
  rw [defectPosition?, Utf8.defect?_eq_none_iff.mpr h, Option.map_none]

theorem defectPosition?_last (h : Bytes.newline ∉ line) (hd : Utf8.defect? line = some d) :
    defectPosition? line = some (1, d.validUpTo + 1) := by
  have hposition := positionOf_of_not_mem h (Utf8.validUpTo_lt hd).le []
  rw [List.append_nil] at hposition
  rw [defectPosition?, hd, Option.map_some, hposition]

theorem defectPosition?_first (h : Bytes.newline ∉ line) (hd : Utf8.defect? line = some d)
    (rest : Bytes) :
    defectPosition? (line ++ Bytes.newline :: rest) = some (1, d.validUpTo + 1) := by
  obtain ⟨d', hd', hvalid⟩ := Utf8.validUpTo_append_ascii (x := Bytes.newline) (by decide) hd rest
  rw [defectPosition?, hd', Option.map_some, hvalid,
    positionOf_of_not_mem h (Utf8.validUpTo_lt hd).le]

theorem defectPosition?_append (h : Bytes.newline ∉ line) (htext : Utf8.IsText line)
    (rest : Bytes) :
    defectPosition? (line ++ Bytes.newline :: rest) =
      (defectPosition? rest).map fun (number, column) => (number + 1, column) := by
  have hnewline : Utf8.IsText (line ++ [Bytes.newline]) :=
    (Utf8.isText_append_ascii (by decide)).mpr ⟨htext, "", rfl⟩
  rw [defectPosition?, ← List.singleton_append, ← List.append_assoc,
    Utf8.defect?_append_of_isText hnewline, Option.map_map, List.append_assoc,
    List.singleton_append, defectPosition?, Option.map_map]
  congr 1
  funext d
  simp only [Function.comp_apply, Utf8.Defect.shift, List.length_append, List.length_singleton,
    positionOf_append h]

/-- The first defect of a content is that of the first line with one. -/
theorem defectPosition?_eq_some_iff (content : Bytes) (above column : Nat) :
    defectPosition? content = some (above + 1, column) ↔
      FirstDefect (all content) above column := by
  induction content using content_induction generalizing above with
  | empty =>
      have htext : Utf8.IsText [] := ⟨"", rfl⟩
      rw [defectPosition?_of_isText htext, all_nil]
      simp [not_firstDefect_nil]
  | last line h hne =>
      rw [all_of_not_mem h hne]
      cases hd : Utf8.defect? line with
      | none =>
          have htext : Utf8.IsText line := Utf8.defect?_eq_none_iff.mp hd
          rw [defectPosition?_of_isText htext, firstDefect_cons_of_isText htext]
          simp [not_firstDefect_nil]
      | some d =>
          rw [defectPosition?_last h hd, firstDefect_cons_of_defect hd]
          simp [eq_comm]
  | next line rest h ih =>
      rw [all_append h]
      cases hd : Utf8.defect? line with
      | none =>
          have htext : Utf8.IsText line := Utf8.defect?_eq_none_iff.mp hd
          rw [defectPosition?_append h htext, firstDefect_cons_of_isText htext]
          simp only [← ih, Option.map_eq_some_iff, Prod.exists, Prod.mk.injEq]
          constructor
          · rintro ⟨number, column', hposition, hnumber, rfl⟩
            obtain ⟨k, rfl⟩ := number_pos hposition
            exact ⟨k, by omega, hposition⟩
          · rintro ⟨k, rfl, hposition⟩
            exact ⟨k + 1, column, hposition, rfl, rfl⟩
      | some d =>
          rw [defectPosition?_first h hd, firstDefect_cons_of_defect hd]
          simp [eq_comm]

end FirstDefects

end Lines

namespace FileLines

section Sources

/-- A line among lines is refused with a defect exactly if it is there and has it. -/
theorem pick_eq_undecodable_iff {path : Path} {line : Nat} {lines : List Bytes}
    {defect : Utf8.Defect} :
    pick path line lines = .error (.line path.display line (.undecodable defect)) ↔
      ∃ bytes, lines[line - 1]? = some bytes ∧ Utf8.defect? bytes = some defect := by
  have hanswer := pick_answeredBy path line lines
  generalize pick path line lines = answer at hanswer ⊢
  cases hanswer with
  | @text s h =>
      rw [h]
      have hnone : Utf8.defect? (Utf8.encode s) = none := Utf8.defect?_eq_none_iff.mpr ⟨s, rfl⟩
      simp [hnone]
  | undecodable h hdefect => simp [h, hdefect]
  | pastEnd h => simp [h]

/-- The lines of a file above a line are had, and this one is refused with a defect that
starts in a column. -/
structure RefusedAt (path : Path) (answer : Nat → Except Fault String) (line column : Nat) :
    Prop where
  had_above : ∀ above, 1 ≤ above → above < line → ∃ text, answer above = .ok text
  refused : ∃ defect : Utf8.Defect,
    answer line = .error (.line path.display line (.undecodable defect)) ∧
      defect.validUpTo + 1 = column

/-- Lines are refused where their first defect is. -/
theorem refusedAt_succ_iff {path : Path} {lines : List Bytes} {answer : Nat → Except Fault String}
    (hanswer : ∀ line, 0 < line → answer line = pick path line lines) (above column : Nat) :
    RefusedAt path answer (above + 1) column ↔ Lines.FirstDefect lines above column := by
  constructor
  · rintro ⟨hhad, defect, hrefused, hcolumn⟩
    rw [hanswer (above + 1) (Nat.succ_pos above), pick_eq_undecodable_iff, Nat.add_sub_cancel]
      at hrefused
    obtain ⟨bytes, hbytes, hdefect⟩ := hrefused
    refine ⟨?_, bytes, defect, hbytes, hdefect, hcolumn⟩
    intro line hline
    obtain ⟨i, hi, rfl⟩ := List.mem_take_iff_getElem.mp hline
    obtain ⟨text, htext⟩ := hhad (i + 1) (by omega) (by omega)
    rw [hanswer (i + 1) (Nat.succ_pos i), pick_eq_ok_iff, Nat.add_sub_cancel,
      List.getElem?_eq_getElem (by omega), Option.some.injEq] at htext
    exact ⟨text, htext.symm⟩
  · rintro ⟨htext, bytes, defect, hbytes, hdefect, hcolumn⟩
    refine ⟨?_, defect, ?_, hcolumn⟩
    · intro line hpos hlt
      have hlength := (List.getElem?_eq_some_iff.mp hbytes).1
      have hmem : lines[line - 1] ∈ lines.take above :=
        List.mem_take_iff_getElem.mpr ⟨line - 1, by omega, rfl⟩
      obtain ⟨text, hline⟩ := htext _ hmem
      refine ⟨text, ?_⟩
      rw [hanswer line hpos, pick_eq_ok_iff, List.getElem?_eq_getElem (by omega), hline]
    · rw [hanswer _ (Nat.succ_pos above), pick_eq_undecodable_iff]
      exact ⟨bytes, hbytes, hdefect⟩

end Sources

end FileLines

/-- A source that is not text is refused at its first defect, and no other is refused so. -/
theorem Go.items_eq_invalidUtf8_iff (content : Bytes) (line column : Nat) :
    Go.items content = .error (.invalidUtf8 line column) ↔
      Lines.defectPosition? content = some (line, column) := by
  unfold Go.items Lines.defectPosition?
  cases Utf8.defect? content with
  | some d => simp [Prod.ext_iff]
  | none =>
      dsimp only
      split <;> simp

namespace FileLines

section Agreement

variable {fs : FileSystem} {path : Path} {content : Bytes}

/-- **Where a content stops being text.** A Go source is refused as no text at a line and a
column exactly if a source of its lines gives the lines above, and refuses this one with a
defect in that column; and no line is refused exactly if the source is text. -/
theorem defect_located_alike (hread : fs.read path = .ok content)
    (hgo : Go.supportsPath path = true) {σ : Type} {source : LineSource σ} {s : σ}
    (hnew : IsNew fs source s) (asked : List Nat) :
    let answer : Nat → Except Fault String := fun line =>
      (source.resolve path line (source.after (asked.map (.resolve path)) s)).1
    (∀ line column,
        Go.parseSource path.display content =
            .error (.parse path.display (.invalidUtf8 line column)) ↔
          RefusedAt path answer line column) ∧
      ((¬∃ line column, RefusedAt path answer line column) ↔ Utf8.IsText content) := by
  intro answer
  have hparse : ∀ line column,
      Go.parseSource path.display content =
          .error (.parse path.display (.invalidUtf8 line column)) ↔
        Lines.defectPosition? content = some (line, column) := by
    intro line column
    rw [← Go.items_eq_invalidUtf8_iff, Go.parseSource, if_pos ((Go.supportsPath_display path).trans hgo)]
    cases Go.items content with
    | ok found => simp
    | error cause => simp
  have hrefused : ∀ line column, RefusedAt path answer line column ↔
      Lines.defectPosition? content = some (line, column) := by
    intro line column
    cases line with
    | zero =>
        constructor
        · rintro ⟨-, defect, hzero, -⟩
          exact absurd (hzero.symm.trans (hnew.answer_zero path asked)) (by simp)
        · intro hposition
          obtain ⟨k, hk⟩ := Lines.number_pos hposition
          omega
    | succ above =>
        rw [Lines.defectPosition?_eq_some_iff]
        exact refusedAt_succ_iff (fun line => hnew.answer_of_read hread asked) above column
  refine ⟨fun line column => (hparse line column).trans (hrefused line column).symm, ?_⟩
  simp only [hrefused, ← Prod.exists (p := fun x => Lines.defectPosition? content = some x),
    ← Option.ne_none_iff_exists', Ne, not_not]
  rw [Lines.defectPosition?, Option.map_eq_none_iff, Utf8.defect?_eq_none_iff]

/-- A character that a newline cuts off: an invalid sequence of the content, and an incomplete
one of the line. -/
theorem defect_located_alike_cut :
    let path : Path := Bytes.ascii "a.go"
    let line : Bytes := [0x78, 0xe2, 0x82]
    let content : Bytes := 0x61 :: Bytes.newline :: line ++ [Bytes.newline, 0x62]
    let fs : FileSystem := ⟨Store.empty.put [path] (.file content), some []⟩
    let answer := fun line =>
      ((cached fs).resolve path line ((cached fs).after ([3, 1].map (.resolve path)) {})).1
    fs.read path = .ok content ∧ Go.supportsPath path = true ∧ IsNew fs (cached fs) {} ∧
      Utf8.defect? content = some ⟨3, some 2⟩ ∧ Utf8.defect? line = some ⟨1, none⟩ ∧
      Go.parseSource path.display content = .error (.parse path.display (.invalidUtf8 2 2)) ∧
      RefusedAt path answer 2 2 ∧ ¬Utf8.IsText content := by
  intro path line content fs answer
  have hread : fs.read path = .ok content := by decide
  have hgo : Go.supportsPath path = true := by decide
  have hitems : Go.items content = .error (.invalidUtf8 2 2) :=
    (Go.items_eq_invalidUtf8_iff content 2 2).mpr (by decide)
  have hparse : Go.parseSource path.display content =
      .error (.parse path.display (.invalidUtf8 2 2)) := by
    rw [Go.parseSource, if_pos ((Go.supportsPath_display path).trans hgo), hitems]
  obtain ⟨hlocated, htext⟩ := defect_located_alike hread hgo .cached [3, 1]
  have hrefused : RefusedAt path answer 2 2 := (hlocated 2 2).mp hparse
  refine ⟨hread, hgo, .cached, by decide, by decide, hparse, hrefused, ?_⟩
  intro h
  exact htext.mpr h ⟨2, 2, hrefused⟩

end Agreement

end FileLines

end GoTags
