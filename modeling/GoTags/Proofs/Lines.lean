import GoTags.Proofs.Utf8
import GoTags.Text.Lines

/-!
# Two ways of counting lines

Splitting a content and walking through it agree on what its lines are.

**Results.**
* `content_cases`, `content_induction`: a content is empty, or one line, or a line with
  a newline and more content; both ways of counting follow these cases.
* `walk_eq`: walking to a line gives the line that splitting gives there, and
  counts the same lines if there are too few.
* `IsLine.getElem?`: a stretch between newlines is the line numbered by the newlines
  before it.
* `exists_isLine`: bytes without a newline stand on a line.
* `forall_isText_all_iff`: the lines of a content are text exactly if the content is.
-/

namespace GoTags

namespace Lines

section Counting

theorem content_cases (content : Bytes) :
    content = [] ∨ (Bytes.newline ∉ content ∧ content ≠ []) ∨
      ∃ line rest, Bytes.newline ∉ line ∧ content = line ++ Bytes.newline :: rest := by
  by_cases h : Bytes.newline ∈ content
  · obtain ⟨line, rest, hcontent, hline⟩ := List.eq_append_cons_of_mem h
    exact Or.inr (Or.inr ⟨line, rest, hline, hcontent⟩)
  · by_cases hnil : content = []
    · exact Or.inl hnil
    · exact Or.inr (Or.inl ⟨h, hnil⟩)

/-- What holds of the empty content and of a last line, and still does with one more line
in front, holds of every content. -/
theorem content_induction {P : Bytes → Prop} (empty : P [])
    (last : ∀ line, Bytes.newline ∉ line → line ≠ [] → P line)
    (next : ∀ line rest, Bytes.newline ∉ line → P rest → P (line ++ Bytes.newline :: rest))
    (content : Bytes) : P content := by
  rcases content_cases content with rfl | ⟨h, hne⟩ | ⟨line, rest, h, hcontent⟩
  · exact empty
  · exact last content h hne
  · have hlength : rest.length < content.length := by
      rw [hcontent, List.length_append, List.length_cons]
      omega
    rw [hcontent]
    exact next line rest h (content_induction empty last next rest)
termination_by content.length

@[simp] theorem all_nil : all [] = [] := rfl

theorem all_of_not_mem {line : Bytes} (h : Bytes.newline ∉ line) (hne : line ≠ []) :
    all line = [line] := by
  unfold all
  rw [Bytes.splitOn_of_not_mem h]
  cases line with
  | nil => exact absurd rfl hne
  | cons b rest => rfl

theorem all_append {line : Bytes} (h : Bytes.newline ∉ line) (rest : Bytes) :
    all (line ++ Bytes.newline :: rest) = line :: all rest := by
  unfold all
  rw [Bytes.splitOn_append h]
  have hne := Bytes.splitOn_ne_nil Bytes.newline rest
  generalize Bytes.splitOn Bytes.newline rest = parts at hne
  dsimp only
  rw [List.getLast?_cons_of_ne_nil hne]
  cases parts.getLast? with
  | none => rfl
  | some last =>
      cases last with
      | nil => exact List.dropLast_cons_of_ne_nil hne
      | cons b last => rfl

theorem next?_of_not_mem {line : Bytes} (h : Bytes.newline ∉ line) (hne : line ≠ []) :
    next? line = some (line, []) := by
  induction line with
  | nil => exact absurd rfl hne
  | cons b rest ih =>
      simp only [List.mem_cons, not_or] at h
      rw [next?, if_neg (Ne.symm h.1)]
      cases rest with
      | nil => rfl
      | cons c rest => rw [ih h.2 (by simp)]

theorem next?_append {line : Bytes} (h : Bytes.newline ∉ line) (rest : Bytes) :
    next? (line ++ Bytes.newline :: rest) = some (line, rest) := by
  induction line with
  | nil => rw [List.nil_append, next?, if_pos rfl]
  | cons b line ih =>
      simp only [List.mem_cons, not_or] at h
      rw [List.cons_append, next?, if_neg (Ne.symm h.1), ih h.2]

/-- What walking to a line comes to, given the lines. -/
def found (lines : List Bytes) (skip passed : Nat) : Found :=
  match lines[skip]? with
  | some line => .line line
  | none => .onlyHas (passed + lines.length)

theorem found_cons_succ (line : Bytes) (lines : List Bytes) (skip passed : Nat) :
    found (line :: lines) (skip + 1) passed = found lines skip (passed + 1) := by
  unfold found
  rw [List.getElem?_cons_succ, List.length_cons]
  cases lines[skip]? with
  | some line => rfl
  | none =>
      dsimp only
      congr 1
      omega

/-- **Walking and splitting agree** on every line and on the number of lines. -/
theorem walk_eq (skip passed : Nat) (content : Bytes) :
    walk skip passed content = found (all content) skip passed := by
  induction skip generalizing passed content with
  | zero =>
      rcases content_cases content with rfl | ⟨h, hne⟩ | ⟨line, rest, h, rfl⟩
      · rfl
      · rw [walk, next?_of_not_mem h hne, all_of_not_mem h hne]
        rfl
      · rw [walk, next?_append h, all_append h]
        rfl
  | succ skip ih =>
      rcases content_cases content with rfl | ⟨h, hne⟩ | ⟨line, rest, h, rfl⟩
      · rfl
      · rw [walk, next?_of_not_mem h hne, all_of_not_mem h hne]
        dsimp only
        rw [ih, found_cons_succ, all_nil]
      · rw [walk, next?_append h, all_append h]
        dsimp only
        rw [ih, found_cons_succ]

end Counting

section Stretches

/-- A line of a content, between what is above it and what is below. -/
structure IsLine (content above line below : Bytes) : Prop where
  content_eq : content = above ++ line ++ below
  above_ends : above = [] ∨ above.getLast? = some Bytes.newline
  one_line : Bytes.newline ∉ line
  below_starts : below = [] ∨ below.head? = some Bytes.newline

/-- A stretch between newlines is the line numbered by the newlines before it. -/
theorem IsLine.getElem? {content above line below : Bytes} (h : IsLine content above line below)
    (hne : line ≠ []) : (all content)[above.count Bytes.newline]? = some line := by
  obtain ⟨rfl, habove, hline, hbelow⟩ := h
  by_cases hmem : Bytes.newline ∈ above
  · obtain ⟨first, rest, hrest, hfirst⟩ := List.eq_append_cons_of_mem hmem
    have hlength : rest.length < above.length := by
      rw [hrest, List.length_append, List.length_cons]
      omega
    have hends : rest = [] ∨ rest.getLast? = some Bytes.newline := by
      cases rest with
      | nil => exact Or.inl rfl
      | cons b rest =>
          right
          have hlast := habove.resolve_left (List.ne_nil_of_mem hmem)
          rwa [hrest, List.getLast?_append_of_ne_nil _ (by simp), List.getLast?_cons_cons] at hlast
    have hstretch : IsLine (rest ++ line ++ below) rest line below := ⟨rfl, hends, hline, hbelow⟩
    have ih := hstretch.getElem? hne
    rw [hrest, List.append_assoc, List.append_assoc, List.cons_append, all_append hfirst,
      List.count_append, List.count_cons_self, List.count_eq_zero.mpr hfirst, Nat.zero_add,
      List.getElem?_cons_succ, ← List.append_assoc]
    exact ih
  · have hnil : above = [] :=
      habove.resolve_right fun hlast => hmem (List.mem_of_getLast? hlast)
    rw [hnil, List.nil_append, List.count_nil]
    rcases hbelow with rfl | hbelow
    · rw [List.append_nil, all_of_not_mem hline hne]
      rfl
    · obtain ⟨rest, rfl⟩ := List.head?_eq_some_iff.mp hbelow
      rw [all_append hline]
      rfl
termination_by above.length

theorem exists_last_line (bytes : Bytes) :
    ∃ above left, bytes = above ++ left ∧
      (above = [] ∨ above.getLast? = some Bytes.newline) ∧ Bytes.newline ∉ left := by
  induction bytes with
  | nil => exact ⟨[], [], rfl, Or.inl rfl, by simp⟩
  | cons b rest ih =>
      obtain ⟨above, left, rfl, habove, hleft⟩ := ih
      rcases habove with rfl | habove
      · by_cases hb : b = Bytes.newline
        · exact ⟨[b], left, rfl, Or.inr (by rw [hb]; rfl), hleft⟩
        · exact ⟨[], b :: left, rfl, Or.inl rfl, by simp [hleft, Ne.symm hb]⟩
      · refine ⟨b :: above, left, rfl, Or.inr ?_, hleft⟩
        cases above with
        | nil => cases habove
        | cons c above => rwa [List.getLast?_cons_cons]

theorem exists_first_line (bytes : Bytes) :
    ∃ right below, bytes = right ++ below ∧ Bytes.newline ∉ right ∧
      (below = [] ∨ below.head? = some Bytes.newline) := by
  rcases content_cases bytes with rfl | ⟨h, -⟩ | ⟨line, rest, h, rfl⟩
  · exact ⟨[], [], rfl, by simp, Or.inl rfl⟩
  · exact ⟨bytes, [], by simp, h, Or.inl rfl⟩
  · exact ⟨line, Bytes.newline :: rest, rfl, h, Or.inr rfl⟩

/-- Bytes without a newline stand on a line. -/
theorem exists_isLine (before after : Bytes) {name : Bytes} (h : Bytes.newline ∉ name) :
    ∃ above left right below, before = above ++ left ∧ Bytes.newline ∉ left ∧
      IsLine (before ++ name ++ after) above (left ++ name ++ right) below := by
  obtain ⟨above, left, rfl, habove, hleft⟩ := exists_last_line before
  obtain ⟨right, below, rfl, hright, hbelow⟩ := exists_first_line after
  refine ⟨above, left, right, below, rfl, hleft, by simp, habove, ?_, hbelow⟩
  simp [hleft, h, hright]

/-- The lines of a content are text exactly if the content is. -/
theorem forall_isText_all_iff (content : Bytes) :
    (∀ line ∈ all content, Utf8.IsText line) ↔ Utf8.IsText content := by
  induction content using content_induction with
  | empty => exact ⟨fun _ => ⟨"", rfl⟩, fun _ => by simp⟩
  | last line h hne => rw [all_of_not_mem h hne, List.forall_mem_singleton]
  | next line rest h ih =>
      rw [all_append h, List.forall_mem_cons, ih, Utf8.isText_append_ascii (by decide)]

theorem isText_of_mem_all {content : Bytes} (h : Utf8.IsText content) {line : Bytes}
    (hline : line ∈ all content) : Utf8.IsText line :=
  (forall_isText_all_iff content).mpr h line hline

end Stretches

end Lines
end GoTags
