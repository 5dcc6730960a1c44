import GoTags.Proofs.Cursor
import GoTags.Proofs.Defects
import Mathlib.Data.Prod.Lex
import Mathlib.Order.Interval.Set.Defs

/-!
# Lines and columns as coordinates

An offset into a content is given to a reader as a line and a column. The line is found by
counting newlines from the front, the column by looking for a newline from behind; both
have to mean the same newline.

**Input.** A content, and offsets up to its end.

**Results.**
* `lastStart_add_tailWidth`: the start of a line and the way to the offset on it make up the
  offset.
* `start?_numberAt`: the start that is found from behind is that of the line that is counted
  from the front.
* `scanPosition?_eq`: the difference that gives the column is never negative.
* `positionOf_lt`: a later offset has a later position.
* `positions_are_coordinates`: offsets and positions correspond, and in order.
-/

namespace GoTags
namespace Lines

section Defs

/-- Where a line starts: the first at the start of the content, every other one just after
the newline that ends the line above it. -/
def start? (content : Bytes) : Nat → Option Nat
  | 0 => none
  | 1 => some 0
  | above + 2 => (content.idxsOf Bytes.newline)[above]?.map (· + 1)

/-- The start of the line on which a byte string ends, found from behind. -/
def lastStart (bytes : Bytes) : Nat :=
  match Bytes.cutLast Bytes.newline bytes with
  | none => 0
  | some (above, _) => above.length + 1

/-- The difference of two offsets, if it is not negative. -/
def sub? (a b : Nat) : Option Nat :=
  if b ≤ a then some (a - b) else none

/-- The position of an offset, by two scans of what precedes it and a difference. There is no
result if the offset is outside, or the difference negative. -/
def scanPosition? (content : Bytes) (offset : Nat) : Option (Nat × Nat) := do
  let before ← Section.Cursor.slice? content 0 offset
  let width ← sub? offset (lastStart before)
  return (before.count Bytes.newline + 1, width + 1)

end Defs

section Starts

theorem lastStart_of_not_mem {bytes : Bytes} (h : Bytes.newline ∉ bytes) : lastStart bytes = 0 := by
  rw [lastStart, Bytes.cutLast_eq_none_iff.mpr h]

theorem lastStart_append (above : Bytes) {left : Bytes} (h : Bytes.newline ∉ left) :
    lastStart (above ++ Bytes.newline :: left) = above.length + 1 := by
  rw [lastStart, Bytes.cutLast_eq_some_iff.mpr ⟨rfl, h⟩]

/-- A byte string lies on one line, or it has a last newline. -/
theorem last_newline_cases (bytes : Bytes) :
    Bytes.newline ∉ bytes ∨
      ∃ above left, bytes = above ++ Bytes.newline :: left ∧ Bytes.newline ∉ left := by
  cases hcut : Bytes.cutLast Bytes.newline bytes with
  | none => exact Or.inl (Bytes.cutLast_eq_none_iff.mp hcut)
  | some parts => exact Or.inr ⟨parts.1, parts.2, Bytes.cutLast_eq_some_iff.mp hcut⟩

/-- The start of a line and the way to the offset on it make up the offset. -/
theorem lastStart_add_tailWidth (bytes : Bytes) :
    lastStart bytes + tailWidth bytes = bytes.length := by
  obtain h | ⟨above, left, rfl, h⟩ := last_newline_cases bytes
  · rw [lastStart_of_not_mem h, tailWidth_of_not_mem h, Nat.zero_add]
  · rw [lastStart_append above h, tailWidth_append, tailWidth_of_not_mem h, List.length_append,
      List.length_cons]
    omega

/-- The start that is found from behind is that of the line that is counted from the
front. -/
theorem start?_append (before after : Bytes) :
    start? (before ++ after) (before.count Bytes.newline + 1) = some (lastStart before) := by
  obtain h | ⟨above, left, rfl, h⟩ := last_newline_cases before
  · rw [List.count_eq_zero.mpr h, lastStart_of_not_mem h, start?]
  · have hcount : (above ++ Bytes.newline :: left).count Bytes.newline =
        above.count Bytes.newline + 1 := by
      rw [List.count_append, List.count_cons_self, List.count_eq_zero.mpr h]
    have hget : ((above ++ Bytes.newline :: left ++ after).idxsOf Bytes.newline)[
        above.count Bytes.newline]? = some above.length := by
      rw [List.append_assoc, List.idxsOf_append, List.getElem?_append_right (by simp)]
      simp
    rw [hcount, lastStart_append above h, start?, hget, Option.map_some]

end Starts

section Positions

variable (content : Bytes) {offset : Nat}

theorem start?_numberAt (offset : Nat) :
    start? content (numberAt content offset) = some (lastStart (content.take offset)) := by
  have hstart := start?_append (content.take offset) (content.drop offset)
  rwa [List.take_append_drop] at hstart

/-- The line starts so far in front of the offset as the column says. -/
theorem lastStart_add_column (h : offset ≤ content.length) :
    lastStart (content.take offset) + (positionOf content offset).2 = offset + 1 := by
  have hlength := lastStart_add_tailWidth (content.take offset)
  rw [List.length_take_of_le h] at hlength
  rw [positionOf, ← Nat.add_assoc, hlength]

/-- The difference that gives the column is never negative. -/
theorem scanPosition?_eq (h : offset ≤ content.length) :
    scanPosition? content offset = some (positionOf content offset) := by
  have hslice : Section.Cursor.slice? content 0 offset = some (content.take offset) :=
    Section.Cursor.slice?_eq_some_iff.mpr
      ⟨[], content.drop offset, (List.take_append_drop offset content).symm, rfl, by simp [h]⟩
  have hlength := lastStart_add_tailWidth (content.take offset)
  rw [List.length_take_of_le h] at hlength
  have hsub : sub? offset (lastStart (content.take offset)) =
      some (tailWidth (content.take offset)) := by
    rw [sub?, if_pos (by omega)]
    congr 1
    omega
  simp only [scanPosition?, hslice, hsub, Option.bind_eq_bind, Option.bind_some]
  rfl

/-- A later offset has a later position. -/
theorem positionOf_lt {a b : Nat} (hab : a < b) (hb : b ≤ content.length) :
    toLex (positionOf content a) < toLex (positionOf content b) := by
  have hlines : numberAt content a ≤ numberAt content b :=
    Nat.add_le_add_right
      ((List.take_sublist_take_left hab.le).count_le Bytes.newline) 1
  rw [Prod.Lex.toLex_lt_toLex]
  obtain hlines | hlines := hlines.lt_or_eq
  · exact Or.inl hlines
  · -- on one line, which has one start, columns are as far apart as offsets
    have hstart := start?_numberAt content a
    rw [hlines, start?_numberAt content b, Option.some.injEq] at hstart
    have hcolumn := lastStart_add_column content (hab.le.trans hb)
    have hcolumn' := lastStart_add_column content hb
    exact Or.inr ⟨hlines, by omega⟩

/-- **Positions are coordinates.** At every offset of a content, its end included, the scans
give the position without a negative difference; line and column count from one, and the
start of the line leads to the offset by the column. Different offsets have different
positions, and later ones have later positions, by line and then by column. -/
theorem positions_are_coordinates :
    (∀ offset ≤ content.length,
      scanPosition? content offset = some (positionOf content offset) ∧
        1 ≤ (positionOf content offset).1 ∧ 1 ≤ (positionOf content offset).2 ∧
        ∃ start, start? content (positionOf content offset).1 = some start ∧
          start + ((positionOf content offset).2 - 1) = offset) ∧
      Set.InjOn (positionOf content) (Set.Iic content.length) ∧
      StrictMonoOn (fun offset => toLex (positionOf content offset)) (Set.Iic content.length) := by
  have hmono : StrictMonoOn (fun offset => toLex (positionOf content offset))
      (Set.Iic content.length) :=
    fun a _ b hb hab => positionOf_lt content hab hb
  refine ⟨?_, fun a ha b hb hab => hmono.injOn ha hb (congrArg toLex hab), hmono⟩
  intro offset hoffset
  have hcolumn := lastStart_add_column content hoffset
  have hpos : 1 ≤ (positionOf content offset).2 := Nat.le_add_left 1 _
  exact ⟨scanPosition?_eq content hoffset, Nat.le_add_left 1 _, hpos, _,
    start?_numberAt content offset, by omega⟩

-- a newline stands at the end of its own line, and an empty line has one column
example : (List.range 5).map (positionOf (Bytes.ascii "a\n\nb")) =
    [(1, 1), (1, 2), (2, 1), (3, 1), (3, 2)] := by
  decide

end Positions

end Lines
end GoTags
