/-!
# Byte strings

Tags files, paths and sources are byte strings, and none of them need be text.
This module fixes their type and the few list operations that the rest of the
library speaks through: cutting at a separator, and putting parts together.
A text and its bytes are related in `GoTags.Text.Utf8`; here only plain ASCII
literals are turned into bytes.

**Results.** Splitting loses nothing; a cut is at the first separator, a last cut
at the last one; a front that is stripped off stood there.
-/

namespace GoTags

/-- A byte string. -/
abbrev Bytes := List UInt8

namespace Bytes

section Defs

/-- The newline byte. -/
def newline : UInt8 := 0x0a

/-- The slash, which separates the parts of a path. -/
def slash : UInt8 := 0x2f

/-- The full stop. -/
def dot : UInt8 := 0x2e

/-- The comma. -/
def comma : UInt8 := 0x2c

/-- The bytes of an ASCII text: each character is one byte. -/
def ascii (s : String) : Bytes :=
  s.toList.map fun c => UInt8.ofNat c.toNat

/-- The parts of a byte string between occurrences of a separator: one more
than there are separators. -/
def splitOn (sep : UInt8) : Bytes → List Bytes
  | [] => [[]]
  | b :: rest =>
      if b = sep then [] :: splitOn sep rest
      else
        match splitOn sep rest with
        | [] => [[b]]
        | part :: parts => (b :: part) :: parts

/-- The parts put together again with the separator between them. -/
def joinWith (sep : UInt8) : List Bytes → Bytes
  | [] => []
  | [part] => part
  | part :: parts => part ++ sep :: joinWith sep parts

/-- What stands before and after the first occurrence of a separator. -/
def cut (sep : UInt8) : Bytes → Option (Bytes × Bytes)
  | [] => none
  | b :: rest =>
      if b = sep then some ([], rest)
      else (cut sep rest).map fun (before, after) => (b :: before, after)

/-- What stands before and after the last occurrence of a separator. -/
def cutLast (sep : UInt8) : Bytes → Option (Bytes × Bytes)
  | [] => none
  | b :: rest =>
      match cutLast sep rest with
      | some (before, after) => some (b :: before, after)
      | none => if b = sep then some ([], rest) else none

/-- Whether a byte string starts with another, and what follows it there. -/
def stripFront : Bytes → Bytes → Option Bytes
  | [], rest => some rest
  | _ :: _, [] => none
  | a :: as, b :: bs => if a = b then stripFront as bs else none

end Defs

section Laws

/-- There is always a part. -/
theorem splitOn_ne_nil (sep : UInt8) (bytes : Bytes) : splitOn sep bytes ≠ [] := by
  cases bytes with
  | nil => simp [splitOn]
  | cons b rest =>
      unfold splitOn
      split
      · simp
      · split <;> simp

theorem splitOn_of_not_mem {sep : UInt8} {part : Bytes} (h : sep ∉ part) :
    splitOn sep part = [part] := by
  induction part with
  | nil => rfl
  | cons b rest ih =>
      simp only [List.mem_cons, not_or] at h
      rw [splitOn, if_neg (Ne.symm h.1), ih h.2]

/-- A separator divides the parts. -/
theorem splitOn_append_sep (sep : UInt8) (left right : Bytes) :
    splitOn sep (left ++ sep :: right) = splitOn sep left ++ splitOn sep right := by
  induction left with
  | nil => simp [splitOn]
  | cons b left ih =>
      rw [List.cons_append, splitOn, splitOn, ih]
      split
      · rfl
      · cases hleft : splitOn sep left with
        | nil => exact absurd hleft (splitOn_ne_nil sep left)
        | cons part parts => rfl

theorem splitOn_append {sep : UInt8} {part : Bytes} (h : sep ∉ part) (rest : Bytes) :
    splitOn sep (part ++ sep :: rest) = part :: splitOn sep rest := by
  rw [splitOn_append_sep, splitOn_of_not_mem h, List.singleton_append]

/-- No separator stands in the parts between separators. -/
theorem not_mem_of_mem_splitOn {sep : UInt8} {bytes part : Bytes}
    (h : part ∈ splitOn sep bytes) : sep ∉ part := by
  induction bytes generalizing part with
  | nil =>
      rw [splitOn, List.mem_singleton] at h
      simp [h]
  | cons b rest ih =>
      rw [splitOn] at h
      split at h
      · rcases List.mem_cons.mp h with rfl | h
        · exact List.not_mem_nil
        · exact ih h
      · rename_i hb
        cases hparts : splitOn sep rest with
        | nil => exact absurd hparts (splitOn_ne_nil sep rest)
        | cons first parts =>
            rw [hparts] at h ih
            rcases List.mem_cons.mp h with rfl | h
            · rw [List.mem_cons, not_or]
              exact ⟨Ne.symm hb, ih List.mem_cons_self⟩
            · exact ih (List.mem_cons_of_mem first h)

/-- A cut is at the first occurrence of the separator. -/
theorem cut_eq_some_iff {sep : UInt8} {bytes before after : Bytes} :
    cut sep bytes = some (before, after) ↔ bytes = before ++ sep :: after ∧ sep ∉ before := by
  induction bytes generalizing before with
  | nil => simp [cut]
  | cons b rest ih =>
      unfold cut
      split
      · rename_i h
        subst h
        cases before with
        | nil => simp
        | cons c cs =>
            simp only [Option.some.injEq, Prod.mk.injEq, List.cons_append, List.cons.injEq,
              List.mem_cons, not_or]
            exact ⟨fun h => absurd h.1 (by simp), fun h => absurd h.1.1 h.2.1⟩
      · rename_i h
        cases before with
        | nil => simp [h]
        | cons c cs =>
            constructor
            · intro hc
              obtain ⟨⟨x, y⟩, hx, he⟩ := Option.map_eq_some_iff.1 hc
              simp only [Prod.mk.injEq, List.cons.injEq] at he
              obtain ⟨⟨rfl, rfl⟩, rfl⟩ := he
              obtain ⟨hr, hn⟩ := ih.1 hx
              exact ⟨by simp [hr], by simp [hn, Ne.symm h]⟩
            · rintro ⟨he, hn⟩
              simp only [List.cons_append, List.cons.injEq] at he
              simp only [List.mem_cons, not_or] at hn
              obtain ⟨rfl, hr⟩ := he
              rw [ih.2 ⟨hr, hn.2⟩]
              rfl

/-- There is no cut without a separator. -/
theorem cutLast_eq_none_iff {sep : UInt8} {bytes : Bytes} :
    cutLast sep bytes = none ↔ sep ∉ bytes := by
  induction bytes with
  | nil => simp [cutLast]
  | cons b rest ih =>
      unfold cutLast
      cases hc : cutLast sep rest with
      | some parts =>
          have hmem : sep ∈ rest := Decidable.byContradiction fun h => by simp [ih.2 h] at hc
          simp [hmem]
      | none =>
          have hmem : sep ∉ rest := ih.1 hc
          by_cases h : b = sep
          · simp [h]
          · simp [h, hmem, Ne.symm h]

/-- A last cut is at the last occurrence of the separator. -/
theorem cutLast_eq_some_iff {sep : UInt8} {bytes before after : Bytes} :
    cutLast sep bytes = some (before, after) ↔
      bytes = before ++ sep :: after ∧ sep ∉ after := by
  induction bytes generalizing before with
  | nil => simp [cutLast]
  | cons b rest ih =>
      unfold cutLast
      cases hc : cutLast sep rest with
      | some parts =>
          obtain ⟨x, y⟩ := parts
          have hmem : sep ∈ rest := Decidable.byContradiction fun h => by
            simp [cutLast_eq_none_iff.2 h] at hc
          cases before with
          | nil =>
              constructor
              · intro h
                simp at h
              · rintro ⟨he, hn⟩
                obtain ⟨-, rfl⟩ := List.cons.inj he
                exact absurd hmem hn
          | cons c cs =>
              have hrest := @ih cs
              rw [hc] at hrest
              simp only [Option.some.injEq, Prod.mk.injEq, List.cons.injEq, List.cons_append]
                at hrest ⊢
              rw [and_assoc, hrest, and_assoc]
      | none =>
          have hmem : sep ∉ rest := cutLast_eq_none_iff.1 hc
          by_cases h : b = sep
          · subst h
            cases before with
            | nil =>
                simp only [if_true, Option.some.injEq, Prod.mk.injEq, true_and, List.nil_append,
                  List.cons.injEq]
                constructor
                · rintro rfl
                  exact ⟨rfl, hmem⟩
                · exact fun h => h.1
            | cons c cs =>
                constructor
                · intro h
                  simp at h
                · rintro ⟨he, hn⟩
                  obtain ⟨-, rfl⟩ := List.cons.inj he
                  simp at hmem
          · rw [if_neg h]
            constructor
            · intro hnone
              cases hnone
            · rintro ⟨he, hn⟩
              cases before with
              | nil => exact absurd (List.cons.inj he).1 h
              | cons c cs =>
                  obtain ⟨-, rfl⟩ := List.cons.inj he
                  simp at hmem

/-- What follows a front is the rest. -/
theorem stripFront_eq_some_iff {front bytes rest : Bytes} :
    stripFront front bytes = some rest ↔ bytes = front ++ rest := by
  induction front generalizing bytes with
  | nil => simp [stripFront]
  | cons a as ih =>
      cases bytes with
      | nil => simp [stripFront]
      | cons b bs =>
          unfold stripFront
          split
          · rename_i h
            simp [ih, h]
          · rename_i h
            simp [Ne.symm h]

end Laws

end Bytes

end GoTags
