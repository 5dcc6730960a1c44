import GoTags.Proofs.Caching
import GoTags.Proofs.RecordLines

/-!
# The lines of a file make up the file

**Input.** A file that can be read, and a source of lines that was asked for nothing but
lines of this file.

**Results.**
* `length_all`, `joinWith_all`: how many lines a content has, and how they are put
  together again.
* `IsNew.answer`: a source of lines answers for the content as it is, whatever lines of
  the file were asked for before.
* `lines_make_up_file`: there are no lines above their number, none of them holds a
  newline, all of them are had exactly if the file is text, and then they are the file.
-/

namespace GoTags

namespace Lines

section Contents

/-- The number of lines of a content: one for each newline, and one more for the bytes
after the last of them. -/
def total (content : Bytes) : Nat :=
  content.count Bytes.newline +
    if content ≠ [] ∧ content.getLast? ≠ some Bytes.newline then 1 else 0

/-- The newline at the end of a content, if there is one. -/
def ending (content : Bytes) : Bytes :=
  if content.getLast? = some Bytes.newline then [Bytes.newline] else []

theorem getLast?_append_newline (line rest : Bytes) :
    (line ++ Bytes.newline :: rest).getLast? = some Bytes.newline ↔
      rest = [] ∨ rest.getLast? = some Bytes.newline := by
  rw [List.getLast?_append_of_ne_nil _ (List.cons_ne_nil _ _)]
  cases rest with
  | nil => simp
  | cons b rest => simp

theorem getLast?_ne_of_not_mem {line : Bytes} (h : Bytes.newline ∉ line) :
    line.getLast? ≠ some Bytes.newline :=
  fun hlast => h (List.mem_of_getLast? hlast)

theorem total_append {line : Bytes} (h : Bytes.newline ∉ line) (rest : Bytes) :
    total (line ++ Bytes.newline :: rest) = total rest + 1 := by
  unfold total
  simp only [ne_eq, getLast?_append_newline, List.append_eq_nil_iff, List.cons_ne_nil, and_false,
    not_false_eq_true, true_and, not_or, List.count_append, List.count_eq_zero.mpr h,
    List.count_cons_self]
  omega

theorem ending_append (line : Bytes) {rest : Bytes} (hrest : rest ≠ []) :
    ending (line ++ Bytes.newline :: rest) = ending rest := by
  simp only [ending, getLast?_append_newline, hrest, false_or]

theorem length_all (content : Bytes) : (all content).length = total content := by
  induction content using content_induction with
  | empty => rfl
  | last line h hne =>
      rw [all_of_not_mem h hne, total, List.count_eq_zero.mpr h,
        if_pos ⟨hne, getLast?_ne_of_not_mem h⟩, List.length_singleton]
  | next line rest h ih => rw [all_append h, List.length_cons, ih, total_append h]

theorem all_ne_nil {content : Bytes} (h : content ≠ []) : all content ≠ [] := by
  rcases content_cases content with hnil | ⟨hline, hne⟩ | ⟨line, rest, hline, rfl⟩
  · exact absurd hnil h
  · rw [all_of_not_mem hline hne]
    exact List.cons_ne_nil _ _
  · rw [all_append hline]
    exact List.cons_ne_nil _ _

/-- The lines of a content put together again, and the newline at its end. -/
theorem joinWith_all (content : Bytes) :
    Bytes.joinWith Bytes.newline (all content) ++ ending content = content := by
  induction content using content_induction with
  | empty => rfl
  | last line h hne =>
      rw [all_of_not_mem h hne, ending, if_neg (getLast?_ne_of_not_mem h), List.append_nil]
      rfl
  | next line rest h ih =>
      rw [all_append h]
      by_cases hrest : rest = []
      · rw [hrest, all_nil, ending, if_pos ((getLast?_append_newline line []).mpr (Or.inl rfl))]
        rfl
      · obtain ⟨first, lines, hlines⟩ := List.exists_cons_of_ne_nil (all_ne_nil hrest)
        rw [hlines, Bytes.joinWith_cons_cons, ← hlines, ending_append line hrest,
          List.append_assoc, List.cons_append, ih]

theorem newline_not_mem_of_mem_all {content line : Bytes} (h : line ∈ all content) :
    Bytes.newline ∉ line := by
  induction content using content_induction with
  | empty => cases h
  | last last hlast hne =>
      rw [all_of_not_mem hlast hne, List.mem_singleton] at h
      rwa [h]
  | next first rest hfirst ih =>
      rw [all_append hfirst, List.mem_cons] at h
      rcases h with rfl | h
      · exact hfirst
      · exact ih h

end Contents

end Lines

namespace FileLines

section Answers

/-- A line among lines is had exactly if it is there and text. -/
theorem pick_eq_ok_iff {path : Path} {line : Nat} {lines : List Bytes} {text : String} :
    pick path line lines = .ok text ↔ lines[line - 1]? = some (Utf8.encode text) := by
  have hanswer := pick_answeredBy path line lines
  generalize pick path line lines = answer at hanswer ⊢
  cases hanswer with
  | @text s h =>
      rw [h, Except.ok.injEq, Option.some.injEq]
      constructor
      · rintro rfl
        rfl
      · exact Utf8.encode_injective
  | undecodable h hdefect =>
      rw [h, Option.some.injEq]
      constructor
      · intro hok
        cases hok
      · rintro rfl
        rw [Utf8.defect?_eq_none_iff.mpr ⟨text, rfl⟩] at hdefect
        cases hdefect
  | pastEnd h =>
      rw [h]
      constructor
      · intro hok
        cases hok
      · intro hsome
        cases hsome

theorem pick_of_length_lt {path : Path} {line : Nat} {lines : List Bytes}
    (h : lines.length < line) :
    pick path line lines = .error (.line path.display line (.pastEnd lines.length)) := by
  have hnone : lines[line - 1]? = none := List.getElem?_eq_none (by omega)
  rw [pick, hnone]
  rfl

/-- A source of the lines of stored files that was asked for nothing yet: one that walks to
every line, or one that keeps lines and has none. -/
inductive IsNew (fs : FileSystem) : {σ : Type} → LineSource σ → σ → Prop
  | scanning : IsNew fs (scanning fs) ()
  | cached : IsNew fs (cached fs) {}

variable {fs : FileSystem} {path : Path} {σ : Type} {source : LineSource σ} {s : σ}

theorem fresh_after (fs : FileSystem) (path : Path) (asked : List Nat) :
    Fresh fs path ((cached fs).after (asked.map (.resolve path)) {}) := by
  induction asked using List.reverseRecOn with
  | nil =>
      intro kept h
      cases h
  | append_singleton asked line ih =>
      rw [List.map_append, List.map_singleton, LineSource.after_concat]
      exact ih.resolve line

/-- What a source answers that was asked for lines of one file only: what is there. -/
theorem IsNew.answer (h : IsNew fs source s) (path : Path) (asked : List Nat) (line : Nat) :
    (source.resolve path line (source.after (asked.map (.resolve path)) s)).1 =
      scan fs path line := by
  cases h with
  | scanning => rfl
  | cached => exact (fresh_after fs path asked).answer line

theorem IsNew.answer_zero (h : IsNew fs source s) (path : Path) (asked : List Nat) :
    (source.resolve path 0 (source.after (asked.map (.resolve path)) s)).1 =
      .error (.line path.display 0 .beforeFirst) :=
  h.answer path asked 0

theorem IsNew.answer_of_read (h : IsNew fs source s) {content : Bytes}
    (hread : fs.read path = .ok content) (asked : List Nat) {line : Nat} (hline : 0 < line) :
    (source.resolve path line (source.after (asked.map (.resolve path)) s)).1 =
      pick path line (Lines.all content) := by
  rw [h.answer, scan_eq fs path hline, hread]

end Answers

section Files

variable {fs : FileSystem} {path : Path} {content : Bytes}

theorem forall_pick_iff (path : Path) (content : Bytes) :
    (∀ line, 1 ≤ line → line ≤ Lines.total content →
        ∃ text, pick path line (Lines.all content) = .ok text) ↔ Utf8.IsText content := by
  rw [← Lines.forall_isText_all_iff]
  constructor
  · intro h bytes hbytes
    obtain ⟨i, hi, rfl⟩ := List.getElem_of_mem hbytes
    obtain ⟨text, htext⟩ := h (i + 1) (by omega) (by rw [← Lines.length_all]; omega)
    rw [pick_eq_ok_iff, Nat.add_sub_cancel, List.getElem?_eq_getElem hi, Option.some.injEq] at htext
    exact ⟨text, htext.symm⟩
  · intro h line hpos hle
    have hi : line - 1 < (Lines.all content).length := by
      rw [Lines.length_all]
      omega
    obtain ⟨text, htext⟩ := h _ (List.getElem_mem hi)
    exact ⟨text, pick_eq_ok_iff.mpr (by rw [List.getElem?_eq_getElem hi, htext])⟩

/-- The texts of the lines of a content that is text, in order. -/
theorem exists_texts (path : Path) (h : Utf8.IsText content) :
    ∃ texts : List String,
      (List.range (Lines.total content)).map (fun i => pick path (i + 1) (Lines.all content)) =
          texts.map .ok ∧
        texts.map Utf8.encode = Lines.all content := by
  have hencode : ((Lines.all content).map Utf8.lossy).map Utf8.encode = Lines.all content := by
    rw [List.map_map]
    refine (List.map_congr_left fun line hline => ?_).trans (List.map_id _)
    exact Utf8.encode_lossy (Lines.isText_of_mem_all h hline)
  refine ⟨(Lines.all content).map Utf8.lossy, ?_, hencode⟩
  refine List.ext_getElem (by simp [Lines.length_all]) ?_
  intro i hi hi'
  have hlength : i < (Lines.all content).length := by simpa using hi'
  have hline := Utf8.encode_lossy (Lines.isText_of_mem_all h (List.getElem_mem hlength))
  rw [List.getElem_map, List.getElem_range, List.getElem_map, List.getElem_map, pick_eq_ok_iff,
    hline, Nat.add_sub_cancel, List.getElem?_eq_getElem hlength]

/-- **The lines of a file make up the file.** A source that is new, or was asked for lines of
the file only, has no line above their number to give; the texts it gives hold no newline; it
gives all of them exactly if the file is text, and then they are the file, put together with
newlines. -/
theorem lines_make_up_file (hread : fs.read path = .ok content) {σ : Type}
    {source : LineSource σ} {s : σ} (hnew : IsNew fs source s) (asked : List Nat) :
    let answer : Nat → Except Fault String := fun line =>
      (source.resolve path line (source.after (asked.map (.resolve path)) s)).1
    (∀ line, Lines.total content < line →
        answer line = .error (.line path.display line (.pastEnd (Lines.total content))) ∧
          (LineFault.pastEnd (Lines.total content)).message =
            "file has only " ++ toString (Lines.total content) ++ " lines") ∧
      (∀ line text, answer line = .ok text → Bytes.newline ∉ Utf8.encode text) ∧
      ((∀ line, 1 ≤ line → line ≤ Lines.total content → ∃ text, answer line = .ok text) ↔
        Utf8.IsText content) ∧
      (Utf8.IsText content → ∃ texts : List String,
        (List.range (Lines.total content)).map (fun i => answer (i + 1)) = texts.map .ok ∧
          Bytes.joinWith Bytes.newline (texts.map Utf8.encode) ++ Lines.ending content =
            content) := by
  intro answer
  have hanswer : ∀ line, 0 < line → answer line = pick path line (Lines.all content) :=
    fun line => hnew.answer_of_read hread asked
  refine ⟨?_, ?_, ?_, ?_⟩
  · intro line hline
    rw [hanswer line (by omega), ← Lines.length_all content]
    refine ⟨pick_of_length_lt ?_, rfl⟩
    rwa [Lines.length_all]
  · intro line text htext
    rcases Nat.eq_zero_or_pos line with rfl | hline
    · have hzero := hnew.answer_zero path asked
      exact absurd (htext.symm.trans hzero) (by simp)
    · rw [hanswer line hline, pick_eq_ok_iff] at htext
      exact Lines.newline_not_mem_of_mem_all (List.mem_of_getElem? htext)
  · rw [← forall_pick_iff path content]
    refine forall₂_congr fun line hline => ?_
    rw [hanswer line hline]
  · intro htext
    obtain ⟨texts, htexts, hlines⟩ := exists_texts path htext
    refine ⟨texts, ?_, ?_⟩
    · rw [← htexts]
      exact List.map_congr_left fun i _ => hanswer (i + 1) (Nat.succ_pos i)
    · rw [hlines, Lines.joinWith_all]

/-- A file whose last line has no newline, with a line in it that is empty. -/
theorem lines_make_up_file_open_end :
    let path : Path := [0x61]
    let content : Bytes := [0xc3, 0xa9, Bytes.newline, Bytes.newline, 0x78]
    let fs : FileSystem := ⟨Store.empty.put [path] (.file content), some []⟩
    let answer := fun line =>
      ((cached fs).resolve path line ((cached fs).after ([3, 0, 7].map (.resolve path)) {})).1
    fs.read path = .ok content ∧ IsNew fs (cached fs) {} ∧ Utf8.IsText content ∧
      answer 4 = .error (.line "a" 4 (.pastEnd 3)) ∧
      ∃ texts : List String, [answer 1, answer 2, answer 3] = texts.map .ok ∧
        Bytes.joinWith Bytes.newline (texts.map Utf8.encode) = content := by
  intro path content fs answer
  have hread : fs.read path = .ok content := by decide
  have htext : Utf8.IsText content := ⟨"é\n\nx", by decide⟩
  obtain ⟨hpast, -, -, hjoined⟩ := lines_make_up_file hread .cached [3, 0, 7]
  obtain ⟨texts, htexts, hcontent⟩ := hjoined htext
  rw [show Lines.ending content = [] by decide, List.append_nil] at hcontent
  exact ⟨hread, .cached, htext, (hpast 4 (by decide)).1, texts, htexts, hcontent⟩

end Files

end FileLines
end GoTags
