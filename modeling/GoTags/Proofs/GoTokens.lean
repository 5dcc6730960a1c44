import GoTags.Go.Scan
import GoTags.Proofs.Derivation
import GoTags.Proofs.Utf8

/-!
# What the tokens of Go are

**Input.** A place in a text.

**Algorithm.** A matcher takes characters off the front of a text and counts
their bytes. Every matcher is put together from ones that do, so a cursor that is
moved by matches stays at a boundary between characters.

**Results.**
* `Matcher.Faithful`: what all matchers have in common.
* `front_spec`: the token at the front of a text is spelt as its kind says, and what is
  passed over is blanks and comments.
* `scanner_obeys`: every token that is read stands in the text where it says, and only
  blanks and comments stand between two tokens.
-/

namespace GoTags
namespace Go

open Grammar

section Widths

/-- The number of bytes of some characters. -/
def width (cs : List Char) : Nat :=
  (cs.map Char.utf8Size).sum

@[simp] theorem width_cons (c : Char) (cs : List Char) : width (c :: cs) = c.utf8Size + width cs :=
  rfl

@[simp] theorem width_append (cs ds : List Char) : width (cs ++ ds) = width cs + width ds := by
  simp [width]

theorem length_encode_ofList (cs : List Char) :
    (Utf8.encode (String.ofList cs)).length = width cs := by
  rw [Utf8.encode_ofList]
  induction cs with
  | nil => rfl
  | cons c cs ih => rw [List.flatMap_cons, List.length_append, ih, width_cons,
      String.length_utf8EncodeChar]

theorem encode_ofList_append (cs ds : List Char) :
    Utf8.encode (String.ofList (cs ++ ds)) =
      Utf8.encode (String.ofList cs) ++ Utf8.encode (String.ofList ds) := by
  rw [String.ofList_append, Utf8.encode_append]

theorem utf8Size_of_ascii {c : Char} (h : c.toNat < 0x80) : c.utf8Size = 1 := by
  have hval : c.val ≤ 0x7f := by
    rw [UInt32.le_iff_toNat_le]
    exact Nat.le_of_lt_succ h
  simp [Char.utf8Size, hval]

/-- All characters of a class are ASCII. -/
def IsAscii (p : Char → Bool) : Prop :=
  ∀ c, p c = true → c.toNat < 0x80

theorem IsAscii.utf8Size {p : Char → Bool} (hp : IsAscii p) {c : Char} (h : p c = true) :
    c.utf8Size = 1 :=
  utf8Size_of_ascii (hp c h)

theorem isAscii_among {s : String} (hs : (s.toList.all fun c => c.toNat < 0x80) = true) :
    IsAscii (among s) := by
  intro c h
  exact of_decide_eq_true (List.all_eq_true.mp hs c (List.contains_iff_mem.mp h))

theorem isAscii_isDigit : IsAscii Char.isDigit := by
  intro c h
  simp only [Char.isDigit, Bool.and_eq_true, decide_eq_true_eq, UInt32.le_iff_toNat_le] at h
  exact Nat.lt_of_le_of_lt h.2 (by decide)

theorem isAscii_isHexDigit : IsAscii isHexDigit := by
  intro c h
  rcases Bool.or_eq_true_iff.mp h with h | h
  · exact isAscii_isDigit c h
  · exact isAscii_among (by decide) c h

/-- Digits are ASCII, whatever the base. -/
@[simp] theorem isAscii_digits :
    IsAscii isBinaryDigit ∧ IsAscii isOctalDigit ∧ IsAscii Char.isDigit ∧ IsAscii isHexDigit :=
  ⟨isAscii_among (by decide), isAscii_among (by decide), isAscii_isDigit, isAscii_isHexDigit⟩

end Widths

namespace Matcher

section Faithful

/-- A match takes some characters off the front of a text. -/
def Takes (cs front : List Char) (m : Match) : Prop :=
  cs = front ++ m.rest ∧ m.width = width front

/-- A matcher whose matches take characters off the front of the text. -/
def Faithful (m : Matcher) : Prop :=
  ∀ cs found, m cs = some found → ∃ front, Takes cs front found

theorem takes_one {p : Char → Bool} {cs : List Char} {found : Match}
    (h : one p cs = some found) : ∃ c, p c = true ∧ Takes cs [c] found := by
  cases cs with
  | nil => cases h
  | cons c rest =>
      rw [one] at h
      split at h
      · rename_i hc
        cases h
        exact ⟨c, hc, rfl, rfl⟩
      · cases h

theorem takes_spelling {as cs : List Char} {found : Match} (h : spelling as cs = some found) :
    Takes cs as found := by
  induction as generalizing cs found with
  | nil =>
      rw [spelling] at h
      cases h
      exact ⟨rfl, rfl⟩
  | cons a as ih =>
      cases cs with
      | nil => cases h
      | cons b bs =>
          rw [spelling] at h
          split at h
          · rename_i hab
            subst hab
            rw [Option.map_eq_some_iff] at h
            obtain ⟨m, hm, rfl⟩ := h
            obtain ⟨hrest, hwidth⟩ := ih hm
            refine ⟨?_, ?_⟩
            · rw [List.cons_append, ← hrest]
            · rw [width_cons, ← hwidth]
          · cases h

theorem takes_andThen {m n : Matcher} {cs : List Char} {found : Match}
    (h : andThen m n cs = some found) :
    ∃ first second, m cs = some first ∧ n first.rest = some second ∧
      found = ⟨first.width + second.width, second.rest⟩ := by
  unfold andThen at h
  split at h
  · cases h
  · rename_i first hfirst
    rw [Option.map_eq_some_iff] at h
    obtain ⟨second, hsecond, rfl⟩ := h
    exact ⟨first, second, hfirst, hsecond, rfl⟩

theorem Takes.andThen {cs front front' : List Char} {first second : Match}
    (h : Takes cs front first) (h' : Takes first.rest front' second) :
    Takes cs (front ++ front') ⟨first.width + second.width, second.rest⟩ := by
  refine ⟨?_, ?_⟩
  · rw [List.append_assoc, ← h'.1, ← h.1]
  · rw [width_append, ← h.2, ← h'.2]

theorem takes_runFrom (p : Char → Bool) (n : Nat) (cs : List Char) :
    ∃ front, cs = front ++ (runFrom p n cs).rest ∧ (runFrom p n cs).width = n + width front ∧
      ∀ c ∈ front, p c = true := by
  induction cs generalizing n with
  | nil => exact ⟨[], rfl, rfl, by simp⟩
  | cons c rest ih =>
      rw [runFrom]
      split
      · rename_i hc
        obtain ⟨front, hrest, hwidth, hfront⟩ := ih (n + c.utf8Size)
        refine ⟨c :: front, ?_, ?_, List.forall_mem_cons.mpr ⟨hc, hfront⟩⟩
        · rw [List.cons_append, ← hrest]
        · rw [hwidth, width_cons, Nat.add_assoc]
      · exact ⟨[], rfl, rfl, by simp⟩

theorem takes_moreDigits {p : Char → Bool} (hp : IsAscii p) (n : Nat)
    (cs : List Char) :
    ∃ front, cs = front ++ (moreDigits p n cs).rest ∧
      (moreDigits p n cs).width = n + width front := by
  fun_induction moreDigits p n cs with
  | case1 n c rest hc ih =>
      obtain ⟨front, hrest, hwidth⟩ := ih
      refine ⟨'_' :: c :: front, ?_, ?_⟩
      · rw [List.cons_append, List.cons_append, ← hrest]
      · rw [hwidth, width_cons, width_cons, hp.utf8Size hc]
        have hgap : '_'.utf8Size = 1 := rfl
        omega
  | case2 n c rest hc => exact ⟨[], rfl, rfl⟩
  | case3 n c rest _ hc ih =>
      obtain ⟨front, hrest, hwidth⟩ := ih
      refine ⟨c :: front, ?_, ?_⟩
      · rw [List.cons_append, ← hrest]
      · rw [hwidth, width_cons, hp.utf8Size hc, Nat.add_assoc]
  | case4 n c rest _ hc => exact ⟨[], rfl, rfl⟩
  | case5 n => exact ⟨[], rfl, rfl⟩

@[simp] theorem faithful_one (p : Char → Bool) : Faithful (one p) := by
  intro cs found h
  obtain ⟨c, -, htakes⟩ := takes_one h
  exact ⟨[c], htakes⟩

@[simp] theorem faithful_andThen {m n : Matcher} (hm : Faithful m) (hn : Faithful n) :
    Faithful (andThen m n) := by
  intro cs found h
  obtain ⟨first, second, hfirst, hsecond, rfl⟩ := takes_andThen h
  obtain ⟨front, htakes⟩ := hm cs first hfirst
  obtain ⟨front', htakes'⟩ := hn first.rest second hsecond
  exact ⟨front ++ front', htakes.andThen htakes'⟩

@[simp] theorem faithful_all {ms : List Matcher} (h : ∀ m ∈ ms, Faithful m) :
    Faithful (all ms) := by
  induction ms with
  | nil =>
      intro cs found hfound
      cases hfound
      exact ⟨[], rfl, rfl⟩
  | cons m ms ih =>
      rw [List.forall_mem_cons] at h
      exact faithful_andThen h.1 (ih h.2)

@[simp] theorem faithful_maybe {m : Matcher} (hm : Faithful m) : Faithful (maybe m) := by
  intro cs found h
  cases hfound : m cs with
  | none =>
      rw [maybe, hfound] at h
      cases h
      exact ⟨[], rfl, rfl⟩
  | some found' =>
      rw [maybe, hfound] at h
      cases h
      exact hm cs found' hfound

theorem longer_eq_some {a b : Option Match} {found : Match} (h : longer a b = some found) :
    a = some found ∨ b = some found := by
  unfold longer at h
  split at h
  · exact Or.inr h
  · exact Or.inl h
  · split at h
    · exact Or.inr h
    · exact Or.inl h

@[simp] theorem faithful_longest {ms : List Matcher} (h : ∀ m ∈ ms, Faithful m) :
    Faithful (longest ms) := by
  intro cs
  unfold longest
  refine List.foldlRecOn (motive := fun best : Option Match =>
    ∀ found, best = some found → ∃ front, Takes cs front found) _ _ (by simp) ?_
  intro best hbest m hm found hfound
  rcases longer_eq_some hfound with hfound | hfound
  · exact hbest found hfound
  · exact h m hm cs found hfound

@[simp] theorem faithful_run (p : Char → Bool) : Faithful (run p) := by
  intro cs found h
  cases h
  obtain ⟨front, hrest, hwidth, -⟩ := takes_runFrom p 0 cs
  exact ⟨front, hrest, by rw [hwidth, Nat.zero_add]⟩

@[simp] theorem faithful_times (n : Nat) (p : Char → Bool) : Faithful (times n p) := by
  refine faithful_all ?_
  intro m hm
  rw [List.eq_of_mem_replicate hm]
  exact faithful_one p

@[simp] theorem faithful_digits {p : Char → Bool} (hp : IsAscii p) :
    Faithful (digits p) := by
  refine faithful_andThen (faithful_one p) ?_
  intro cs found h
  cases h
  obtain ⟨front, hrest, hwidth⟩ := takes_moreDigits hp 0 cs
  exact ⟨front, hrest, by rw [hwidth, Nat.zero_add]⟩

end Faithful

end Matcher

section Classes

open Matcher

@[simp] theorem faithful_gap : Faithful gap :=
  faithful_maybe (faithful_one _)

@[simp] theorem faithful_base (letters : String) : Faithful (base letters) :=
  faithful_andThen (faithful_one _) (faithful_one _)

@[simp] theorem faithful_exponent (letters : String) : Faithful (exponent letters) := by
  simp [exponent]

theorem faithful_intForms : ∀ m ∈ intForms, Faithful m := by
  have hmore : Faithful (andThen gap (digits Char.isDigit)) := by simp
  simp [intForms, hmore]

theorem faithful_floatForms : ∀ m ∈ floatForms, Faithful m := by
  simp [floatForms]

theorem faithful_imaginaryForms : ∀ m ∈ imaginaryForms, Faithful m := by
  intro m hm
  obtain ⟨n, hn, rfl⟩ := List.mem_map.mp hm
  refine faithful_andThen ?_ (faithful_one _)
  rcases List.mem_append.mp hn with hn | hn
  · rcases List.mem_cons.mp hn with rfl | hn
    · exact faithful_digits isAscii_isDigit
    · exact faithful_intForms n hn
  · exact faithful_floatForms n hn

theorem faithful_runeForms : ∀ m ∈ runeForms, Faithful m := by
  have hcode : ∀ n c, Faithful (andThen (one (· == c)) (times n isHexDigit)) := by simp
  simp [runeForms, hcode]

theorem faithful_escapeForms : ∀ m ∈ escapeForms, Faithful m := by
  have hdigits : Faithful (andThen (times 2 Char.isDigit) (maybe (one Char.isDigit))) := by simp
  simp [escapeForms, hdigits]

theorem faithful_stringContent : Faithful stringContent := by
  simp [stringContent]

theorem takes_blockComment {n : Nat} {cs : List Char} {found : Match}
    (h : blockComment n cs = some found) :
    ∃ front, cs = front ++ found.rest ∧ found.width = n + width front := by
  fun_induction blockComment n cs with
  | case1 n rest =>
      cases h
      exact ⟨['*', '/'], rfl, rfl⟩
  | case2 => cases h
  | case3 n c rest _ _ ih =>
      obtain ⟨front, hrest, hwidth⟩ := ih h
      refine ⟨c :: front, ?_, ?_⟩
      · rw [List.cons_append, ← hrest]
      · rw [hwidth, width_cons, Nat.add_assoc]
  | case4 => cases h

theorem faithful_comment : Faithful comment := by
  intro cs found h
  unfold comment at h
  split at h
  · cases h
    rename_i rest
    obtain ⟨front, hrest, hwidth, -⟩ := takes_runFrom (fun c => !among "\n\x00" c) 2 rest
    refine ⟨'/' :: '/' :: front, ?_, ?_⟩
    · rw [List.cons_append, List.cons_append, ← hrest]
    · rw [hwidth, width_cons, width_cons, ← Nat.add_assoc]
      rfl
  · obtain ⟨front, hrest, hwidth⟩ := takes_blockComment h
    refine ⟨'/' :: '*' :: front, ?_, ?_⟩
    · rw [List.cons_append, List.cons_append, ← hrest]
    · rw [hwidth, width_cons, width_cons, ← Nat.add_assoc]
      rfl
  · cases h

/-- The characters of a name: a letter or an underscore, then such and digits. -/
def IsName (cs : List Char) : Prop :=
  ∃ c rest, cs = c :: rest ∧ Identifier.isStart c = true ∧
    ∀ d ∈ rest, Identifier.isContinue d = true

theorem takes_word {cs : List Char} {found : Match} (h : word cs = some found) :
    ∃ front, Takes cs front found ∧ IsName front := by
  obtain ⟨first, second, hfirst, hsecond, rfl⟩ := takes_andThen h
  obtain ⟨c, hc, htakes⟩ := takes_one hfirst
  cases hsecond
  obtain ⟨rest, hrest, hwidth, hall⟩ := takes_runFrom Identifier.isContinue 0 first.rest
  rw [Nat.zero_add] at hwidth
  exact ⟨[c] ++ rest, htakes.andThen ⟨hrest, hwidth⟩, c, rest, rfl, hc, hall⟩

end Classes

section Tokens

open Matcher

/-- How a token of some kind is spelt, as far as names and marks go. -/
def Spelt (t : Terminal) (front : List Char) : Prop :=
  (t = .identifier → IsName front) ∧ ∀ s, (s, t) ∈ Terminal.marks → front = s.toList

theorem spelt_of_ne {t : Terminal} (h : t ≠ .identifier) (hmarks : ∀ x ∈ Terminal.marks, x.2 ≠ t)
    (front : List Char) : Spelt t front :=
  ⟨fun ht => absurd ht h, fun _ hs => absurd rfl (hmarks _ hs)⟩

theorem spelt_mark {s : String} {t : Terminal} (h : (s, t) ∈ Terminal.marks) :
    Spelt t s.toList := by
  have hnodup : (Terminal.marks.map Prod.snd).Nodup := by decide
  have hname : ∀ x ∈ Terminal.marks, x.2 ≠ .identifier := by decide
  refine ⟨fun ht => absurd ht (hname _ h), ?_⟩
  intro s' hs'
  have heq := List.inj_on_of_nodup_map hnodup h hs' rfl
  rw [(Prod.mk.inj heq).1]

theorem Candidate.longer_eq_some {a b : Candidate} {x : Terminal × Match}
    (h : Candidate.longer a b = some x) : a = some x ∨ b = some x := by
  unfold Candidate.longer at h
  split at h
  · exact Or.inr h
  · exact Or.inl h
  · split at h
    · exact Or.inr h
    · exact Or.inl h

theorem exists_of_usable {valid : TerminalSet} {kinds : List (Terminal × Matcher)} {cs : List Char}
    {t : Terminal} {found : Match} (h : usable valid kinds cs = some (t, found)) :
    ∃ m, (t, m) ∈ kinds ∧ m cs = some found := by
  unfold usable at h
  revert t found
  refine List.foldlRecOn (motive := fun best : Candidate =>
    ∀ {t found}, best = some (t, found) → ∃ m, (t, m) ∈ kinds ∧ m cs = some found)
    _ _ (by simp) ?_
  rintro best hbest ⟨u, m⟩ hm t found hfound
  dsimp only at hfound
  split at hfound
  · rcases Candidate.longer_eq_some hfound with hfound | hfound
    · exact hbest hfound
    · rw [Option.map_eq_some_iff] at hfound
      obtain ⟨found', hmatch, heq⟩ := hfound
      cases heq
      exact ⟨m, hm, hmatch⟩
  · exact hbest hfound

theorem takes_stringParts {valid : TerminalSet} {cs : List Char} {t : Terminal} {found : Match}
    (h : usable valid stringParts cs = some (t, found)) :
    ∃ front, Takes cs front found ∧ Spelt t front := by
  obtain ⟨m, hm, hmatch⟩ := exists_of_usable h
  simp only [stringParts, List.mem_cons, Prod.mk.injEq, List.not_mem_nil, or_false] at hm
  rcases hm with ⟨rfl, rfl⟩ | ⟨rfl, rfl⟩ | ⟨rfl, rfl⟩
  · obtain ⟨front, htakes⟩ := faithful_stringContent cs found hmatch
    exact ⟨front, htakes, spelt_of_ne (by decide) (by decide) front⟩
  · exact ⟨_, takes_spelling hmatch, spelt_of_ne (by decide) (by decide) _⟩
  · obtain ⟨front, htakes⟩ := faithful_longest faithful_escapeForms cs found hmatch
    exact ⟨front, htakes, spelt_of_ne (by decide) (by decide) front⟩

theorem takes_classes {valid : TerminalSet} {cs : List Char} {t : Terminal} {found : Match}
    (h : usable valid classes cs = some (t, found)) :
    ∃ front, Takes cs front found ∧ Spelt t front := by
  obtain ⟨m, hm, hmatch⟩ := exists_of_usable h
  rcases List.mem_append.mp hm with hm | hm
  · -- the literals
    have hfaithful : Faithful m ∧ t ≠ .identifier ∧ ∀ x ∈ Terminal.marks, x.2 ≠ t := by
      simp only [List.mem_cons, Prod.mk.injEq, List.not_mem_nil, or_false] at hm
      rcases hm with ⟨rfl, rfl⟩ | ⟨rfl, rfl⟩ | ⟨rfl, rfl⟩ | ⟨rfl, rfl⟩
      · exact ⟨faithful_longest faithful_intForms, by decide, by decide⟩
      · exact ⟨faithful_longest faithful_floatForms, by decide, by decide⟩
      · exact ⟨faithful_longest faithful_imaginaryForms, by decide, by decide⟩
      · exact ⟨faithful_longest faithful_runeForms, by decide, by decide⟩
    obtain ⟨front, htakes⟩ := hfaithful.1 cs found hmatch
    exact ⟨front, htakes, spelt_of_ne hfaithful.2.1 hfaithful.2.2 front⟩
  · -- the marks
    obtain ⟨⟨s, u⟩, hmark, heq⟩ := List.mem_map.mp hm
    cases heq
    exact ⟨s.toList, takes_spelling hmatch, spelt_mark hmark⟩

theorem takes_usableWord {valid reserved : TerminalSet} {cs : List Char} {t : Terminal}
    {found : Match} (h : usableWord valid reserved cs = some (t, found)) :
    ∃ front, Takes cs front found ∧ Spelt t front := by
  unfold usableWord at h
  split at h
  · cases h
  · rename_i m hword
    obtain ⟨front, htakes, hname⟩ := takes_word hword
    dsimp only at h
    split at h
    · -- a word with a meaning of its own
      rename_i u hmeaning
      cases h
      obtain ⟨⟨s, v⟩, hfind, rfl⟩ := Option.map_eq_some_iff.mp (Option.filter_eq_some_iff.mp hmeaning).1
      have hmem := List.mem_of_find?_eq_some hfind
      have hwords : ∀ x ∈ Terminal.words, x.2 ≠ .identifier ∧
          ∀ y ∈ Terminal.marks, y.2 ≠ x.2 := by decide
      exact ⟨front, htakes, spelt_of_ne (hwords _ hmem).1 (hwords _ hmem).2 front⟩
    · split at h
      · cases h
        have hmarks : ∀ x ∈ Terminal.marks, x.2 ≠ .identifier := by decide
        exact ⟨front, htakes, fun _ => hname, fun s hs => absurd rfl (hmarks _ hs)⟩
      · cases h

/-- Only blanks and comments stand in a text before the rest of it. A comment is
taken with the text that follows, so that it goes as far as it can. -/
inductive Gap : List Char → List Char → Prop
  | none {rest : List Char} : Gap rest rest
  | blank {c : Char} {cs rest : List Char} (hc : isBlank c = true) (h : Gap cs rest) :
      Gap (c :: cs) rest
  | comment {cs rest : List Char} {m : Match} (hm : comment cs = some m) (h : Gap m.rest rest) :
      Gap cs rest

/-- What was found at the front of a text is taken off it. A token is spelt as its
kind says, and the end of the file is found only at the end. What is passed over is
a blank or a comment. -/
def Front.Fits (cs : List Char) : Front → Prop
  | .token t found => ∃ fr, Takes cs fr found ∧ Spelt t fr ∧ (t = .endOfFile → found.rest = [])
  | .skip found _ => ∃ fr, Takes cs fr found ∧ ∀ rest, Gap found.rest rest → Gap cs rest
  | .nothing => True

/-- The end of the file is none of the classes of tokens. -/
theorem ne_endOfFile_of_usable {valid : TerminalSet} {kinds : List (Terminal × Matcher)}
    (hkinds : ∀ x ∈ kinds, x.1 ≠ .endOfFile) {cs : List Char} {t : Terminal} {found : Match}
    (h : usable valid kinds cs = some (t, found)) : t ≠ .endOfFile := by
  obtain ⟨m, hm, -⟩ := exists_of_usable h
  exact hkinds _ hm

theorem ne_endOfFile_of_usableWord {valid reserved : TerminalSet} {cs : List Char} {t : Terminal}
    {found : Match} (h : usableWord valid reserved cs = some (t, found)) : t ≠ .endOfFile := by
  have hwords : ∀ x ∈ Terminal.words, x.2 ≠ .endOfFile := by decide
  unfold usableWord at h
  split at h
  · cases h
  · dsimp only at h
    split at h
    · rename_i u hmeaning
      cases h
      obtain ⟨x, hfind, rfl⟩ := Option.map_eq_some_iff.mp (Option.filter_eq_some_iff.mp hmeaning).1
      exact hwords x (List.mem_of_find?_eq_some hfind)
    · split at h
      · cases h
        decide
      · cases h

theorem front_spec (valid reserved : TerminalSet) (adjacent : Bool) (cs : List Char) :
    (front valid reserved adjacent cs).Fits cs := by
  unfold front
  dsimp only
  split
  · -- a part of a string
    rename_i t m hstring
    split at hstring
    · obtain ⟨fr, htakes, hspelt⟩ := takes_stringParts hstring
      have hend := ne_endOfFile_of_usable (by decide) hstring
      exact ⟨fr, htakes, hspelt, fun h => absurd h hend⟩
    · cases hstring
  · split
    · -- the end of the text
      split
      · rename_i t hend
        refine ⟨[], ⟨rfl, rfl⟩, ?_, fun _ => rfl⟩
        unfold atEnd at hend
        split_ifs at hend <;> cases hend <;> exact spelt_of_ne (by decide) (by decide) []
      · trivial
    · rename_i rest
      split
      · exact ⟨['\x00'], ⟨rfl, rfl⟩, spelt_of_ne (by decide) (by decide) _, nofun⟩
      · trivial
    · rename_i c rest _ _
      split
      · rename_i hnewline
        rw [Bool.and_eq_true, beq_iff_eq] at hnewline
        obtain ⟨rfl, -⟩ := hnewline
        exact ⟨['\n'], ⟨rfl, rfl⟩, spelt_of_ne (by decide) (by decide) _, nofun⟩
      · split
        · rename_i hblank
          refine ⟨[c], ⟨rfl, ?_⟩, fun _ => .blank hblank⟩
          rw [width_cons, (isAscii_among (by decide)).utf8Size hblank]
          rfl
        · split
          · rename_i m hcomment
            obtain ⟨fr, htakes⟩ := faithful_comment _ m hcomment
            exact ⟨fr, htakes, fun _ => .comment hcomment⟩
          · split
            · rename_i t m hlonger
              rcases Candidate.longer_eq_some hlonger with h | h
              · obtain ⟨fr, htakes, hspelt⟩ := takes_classes h
                have hend := ne_endOfFile_of_usable (by decide) h
                exact ⟨fr, htakes, hspelt, fun h => absurd h hend⟩
              · obtain ⟨fr, htakes, hspelt⟩ := takes_usableWord h
                exact ⟨fr, htakes, hspelt, fun h' => absurd h' (ne_endOfFile_of_usableWord h)⟩
            · trivial

end Tokens

section Cursors

open Matcher

/-- A cursor stands in a content, between two characters. -/
def Cursor.At (content : Bytes) (c : Cursor) : Prop :=
  ∃ before, content = Utf8.encode (String.ofList (before ++ c.rest)) ∧ c.offset = width before

/-- A token of some kind stands in a content between two offsets. -/
structure Stands (content : Bytes) (t : Terminal) (start stop : Nat)
    (before front after : List Char) : Prop where
  content_eq : content = Utf8.encode (String.ofList before) ++ Utf8.encode (String.ofList front) ++
    Utf8.encode (String.ofList after)
  start_eq : start = (Utf8.encode (String.ofList before)).length
  stop_eq : stop = start + (Utf8.encode (String.ofList front)).length
  spelt : Spelt t front

/-- The tokens that are read in a content: they stand in it, and do so after the
place where reading starts and right before the place where it goes on. -/
def Reads (content : Bytes) : Reading := fun a (s, start, stop) b =>
  a ≤ start ∧ stop = b ∧
    ∃ t : Terminal, s = t.code ∧ ∃ before front after, Stands content t start stop before front after

/-- The tokens of a content, each with the offset where the one before it ends: only
blanks and comments stand between, and the end of the file stands at the end. -/
def Follows (content : Bytes) : Reading := fun a (s, start, stop) b =>
  stop = b ∧ ∃ t : Terminal, s = t.code ∧ ∃ before gap front after,
    a = width before ∧ Gap (gap ++ (front ++ after)) (front ++ after) ∧
      Stands content t start stop (before ++ gap) front after ∧ (t = .endOfFile → after = [])

theorem Follows.reads {content : Bytes} {a b : Nat} {k : Leaf} (h : Follows content a k b) :
    Reads content a k b := by
  obtain ⟨s, start, stop⟩ := k
  obtain ⟨hstop, t, hs, before, gap, front, after, ha, -, hstands, -⟩ := h
  refine ⟨?_, hstop, t, hs, _, _, _, hstands⟩
  have hstart := hstands.start_eq
  rw [length_encode_ofList, width_append] at hstart
  omega

/-- What reading a token takes off the text at a cursor: a gap, and the characters of
the token. -/
structure Taken (c : Cursor) (token : Token Cursor) (t : Terminal) (gap front : List Char) :
    Prop where
  symbol_eq : token.symbol = t.code
  rest_eq : c.rest = gap ++ (front ++ token.after.rest)
  gap_passed : Gap c.rest (front ++ token.after.rest)
  start_eq : token.start = c.offset + width gap
  stop_eq : token.stop = token.start + width front
  after_eq : token.after.offset = token.stop
  spelt : Spelt t front
  ends : t = .endOfFile → token.after.rest = []

theorem taken_here {c : Cursor} {t : Terminal} {front : List Char} {m : Match}
    (h : Takes c.rest front m) (hspelt : Spelt t front) (hends : t = .endOfFile → m.rest = []) :
    Taken c ⟨t.code, c.offset, (c.after m).offset, c.after m⟩ t [] front := by
  refine ⟨rfl, h.1, ?_, rfl, ?_, rfl, hspelt, hends⟩
  · rw [h.1]
    exact .none
  · dsimp only [Cursor.after]
    rw [h.2]

theorem nextToken_spec {valid reserved : TerminalSet} {fuel : Nat} {adjacent : Bool} {c : Cursor}
    {token : Token Cursor} (h : nextToken valid reserved fuel adjacent c = .ok token) :
    ∃ t gap front, Taken c token t gap front := by
  induction fuel generalizing adjacent c with
  | zero =>
      rw [nextToken] at h
      cases h
  | succ fuel ih =>
      have hfront := front_spec valid reserved adjacent c.rest
      rw [nextToken] at h
      split at h
      · rename_i t m hfound
        rw [hfound] at hfront
        obtain ⟨front, htakes, hspelt, hends⟩ := hfront
        cases h
        exact ⟨t, [], front, taken_here htakes hspelt hends⟩
      · rename_i m blank hfound
        rw [hfound] at hfront
        obtain ⟨passed, ⟨hrest, hwidth⟩, hgap⟩ := hfront
        obtain ⟨t, gap, front, htaken⟩ := ih h
        refine ⟨t, passed ++ gap, front, htaken.symbol_eq, ?_, hgap _ htaken.gap_passed, ?_,
          htaken.stop_eq, htaken.after_eq, htaken.spelt, htaken.ends⟩
        · rw [List.append_assoc, ← htaken.rest_eq]
          exact hrest
        · rw [htaken.start_eq, width_append, ← hwidth, ← Nat.add_assoc]
          rfl
      · cases h

theorem Taken.after_at {content : Bytes} {c : Cursor} {token : Token Cursor} {t : Terminal}
    {gap front : List Char} (h : Taken c token t gap front) (hc : c.At content) :
    token.after.At content := by
  obtain ⟨before, hcontent, hoffset⟩ := hc
  refine ⟨before ++ gap ++ front, ?_, ?_⟩
  · rw [hcontent, h.rest_eq]
    simp only [List.append_assoc]
  · rw [h.after_eq, h.stop_eq, h.start_eq, hoffset, width_append, width_append]

theorem Taken.follows {content : Bytes} {c : Cursor} {token : Token Cursor} {t : Terminal}
    {gap front : List Char} (h : Taken c token t gap front) (hc : c.At content) :
    Follows content c.offset (token.symbol, token.start, token.stop) token.after.offset := by
  obtain ⟨before, hcontent, hoffset⟩ := hc
  have hgap := h.gap_passed
  rw [h.rest_eq] at hcontent hgap
  refine ⟨h.after_eq.symm, t, h.symbol_eq, before, gap, front, token.after.rest, hoffset, hgap,
    ⟨?_, ?_, ?_, h.spelt⟩, h.ends⟩
  · rw [hcontent, ← encode_ofList_append, ← encode_ofList_append]
    simp only [List.append_assoc]
  · rw [length_encode_ofList, width_append, h.start_eq, hoffset]
  · rw [length_encode_ofList, h.stop_eq]

/-- **Tokens stand where they say.** Whatever the state asks for, the scanner stays
between characters, and reads tokens that stand in the content, one after the other
and with nothing but blanks and comments between them. -/
theorem scanner_obeys (g : Tables) (content : Bytes) (length : Nat) :
    (scanner g length).Obeys (Cursor.At content) (Follows content) := by
  have hnext : ∀ {s c token}, (scanner g length).next s c = .ok token →
      ∃ t gap front, Taken c token t gap front := by
    intro s c token h
    unfold scanner at h
    dsimp only at h
    split at h
    · obtain ⟨front, hrest, hwidth, -⟩ := takes_runFrom isRawContent 0 c.rest
      rw [Nat.zero_add] at hwidth
      have hspelt : Spelt .rawContent front := spelt_of_ne (by decide) (by decide) front
      cases h
      exact ⟨.rawContent, [], front, taken_here ⟨hrest, hwidth⟩ hspelt nofun⟩
    · exact nextToken_spec h
  refine ⟨?_, ?_⟩
  · intro s c token hc h
    obtain ⟨t, gap, front, htaken⟩ := hnext h
    exact htaken.after_at hc
  · intro s c token hc h
    obtain ⟨t, gap, front, htaken⟩ := hnext h
    exact htaken.follows hc

end Cursors

end Go
end GoTags
