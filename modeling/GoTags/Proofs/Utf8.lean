import GoTags.Text.Utf8
import Mathlib.Tactic

/-!
# Texts and their bytes

The pass that takes a byte string apart is tied to the table of UTF-8 forms,
and through it to the encoding of texts.

**Input.** A byte string, or a text.

**Results.**
* `pieces_encode`: the pieces of the bytes of a text are its characters.
* `decode?_eq_some_iff`: a byte string decodes to a text exactly if it is the
  bytes of that text; so being text can be argued on the side of characters.
* `isText_append_ascii`: a byte string cut at an ASCII byte is text exactly if
  both parts are.
* `encode_lossy_append_ascii`, `mem_of_mem_encode_lossy`: showing defects goes on
  alike on both sides of an ASCII byte, and adds none.
-/

namespace GoTags
namespace Utf8

section Forms

/-- A continuation byte. -/
def IsTail (b : UInt8) : Prop :=
  0x80 ≤ b.toNat ∧ b.toNat < 0xc0

/-- The table of forms: the bytes that spell a character, with its number. The
number shuts out overlong forms, surrogates and what lies above `0x10ffff`. -/
inductive Spells : Bytes → Nat → Prop
  | one {a : UInt8} (h : a.toNat < 0x80) : Spells [a] a.toNat
  | two {a b : UInt8} (ha : 0xc0 ≤ a.toNat ∧ a.toNat < 0xe0) (hb : IsTail b)
      (h : 0x80 ≤ (a.toNat - 0xc0) * 64 + (b.toNat - 0x80)) :
      Spells [a, b] ((a.toNat - 0xc0) * 64 + (b.toNat - 0x80))
  | three {a b c : UInt8} (ha : 0xe0 ≤ a.toNat ∧ a.toNat < 0xf0) (hb : IsTail b)
      (hc : IsTail c)
      (h : 0x800 ≤ ((a.toNat - 0xe0) * 64 + (b.toNat - 0x80)) * 64 + (c.toNat - 0x80))
      (hs : a.toNat = 0xed → b.toNat < 0xa0) :
      Spells [a, b, c] (((a.toNat - 0xe0) * 64 + (b.toNat - 0x80)) * 64 + (c.toNat - 0x80))
  | four {a b c d : UInt8} (ha : 0xf0 ≤ a.toNat ∧ a.toNat < 0xf5) (hb : IsTail b)
      (hc : IsTail c) (hd : IsTail d)
      (h : 0x10000 ≤ (((a.toNat - 0xf0) * 64 + (b.toNat - 0x80)) * 64 + (c.toNat - 0x80)) * 64 +
        (d.toNat - 0x80))
      (hs : a.toNat = 0xf4 → b.toNat < 0x90) :
      Spells [a, b, c, d] ((((a.toNat - 0xf0) * 64 + (b.toNat - 0x80)) * 64 +
        (c.toNat - 0x80)) * 64 + (d.toNat - 0x80))

/-- Either one ASCII byte is spelt, or no byte is one. -/
theorem Spells.ascii_or {bytes : Bytes} {n : Nat} (h : Spells bytes n) :
    (∃ a : UInt8, a.toNat < 0x80 ∧ bytes = [a] ∧ n = a.toNat) ∨ ∀ b ∈ bytes, 0x80 ≤ b.toNat := by
  cases h with
  | @one a ha => exact Or.inl ⟨a, ha, rfl, rfl⟩
  | two ha hb _ =>
      right
      simp only [List.mem_cons, List.not_mem_nil, or_false, forall_eq_or_imp, forall_eq]
      exact ⟨by omega, hb.1⟩
  | three ha hb hc _ _ =>
      right
      simp only [List.mem_cons, List.not_mem_nil, or_false, forall_eq_or_imp, forall_eq]
      exact ⟨by omega, hb.1, hc.1⟩
  | four ha hb hc hd _ _ =>
      right
      simp only [List.mem_cons, List.not_mem_nil, or_false, forall_eq_or_imp, forall_eq]
      exact ⟨by omega, hb.1, hc.1, hd.1⟩

/-- What is spelt is the number of a character. -/
theorem Spells.isValid {bytes : Bytes} {n : Nat} (h : Spells bytes n) : n.isValidChar := by
  unfold Nat.isValidChar
  cases h with
  | one h => omega
  | two ha hb _ =>
      unfold IsTail at hb
      omega
  | three ha hb hc _ hs =>
      unfold IsTail at hb hc
      omega
  | four ha hb hc hd _ hs =>
      unfold IsTail at hb hc hd
      omega

theorem toNat_ofNat_of_isValid {n : Nat} (h : n.isValidChar) : (Char.ofNat n).val.toNat = n := by
  unfold Char.ofNat
  rw [dif_pos h]
  rfl

/-- The bytes of a character spell its number. -/
theorem spells_utf8EncodeChar (c : Char) : Spells (String.utf8EncodeChar c) c.toNat := by
  have hc := c.valid
  unfold UInt32.isValidChar Nat.isValidChar at hc
  unfold String.utf8EncodeChar Char.toNat
  set v := c.val.toNat with hv
  have small {n : Nat} (h : n < 256) : (UInt8.ofNat n).toNat = n :=
    UInt8.toNat_ofNat_of_lt' h
  dsimp only
  split_ifs with h1 h2 h3
  · have h := Spells.one (a := UInt8.ofNat v) (by rw [small (by omega)]; omega)
    rwa [small (by omega)] at h
  · have ha := small (n := v / 64 % 32 + 192) (by omega)
    have hb := small (n := v % 64 + 128) (by omega)
    have h := Spells.two (a := UInt8.ofNat (v / 64 % 32 + 192))
      (b := UInt8.ofNat (v % 64 + 128)) (by omega) (by unfold IsTail; omega) (by omega)
    rw [ha, hb] at h
    convert h using 1
    omega
  · have ha := small (n := v / 4096 % 16 + 224) (by omega)
    have hb := small (n := v / 64 % 64 + 128) (by omega)
    have hc := small (n := v % 64 + 128) (by omega)
    have h := Spells.three (a := UInt8.ofNat (v / 4096 % 16 + 224))
      (b := UInt8.ofNat (v / 64 % 64 + 128)) (c := UInt8.ofNat (v % 64 + 128)) (by omega)
      (by unfold IsTail; omega) (by unfold IsTail; omega) (by omega) (by omega)
    rw [ha, hb, hc] at h
    convert h using 1
    omega
  · have ha := small (n := v / 262144 % 8 + 240) (by omega)
    have hb := small (n := v / 4096 % 64 + 128) (by omega)
    have hc := small (n := v / 64 % 64 + 128) (by omega)
    have hd := small (n := v % 64 + 128) (by omega)
    have h := Spells.four (a := UInt8.ofNat (v / 262144 % 8 + 240))
      (b := UInt8.ofNat (v / 4096 % 64 + 128)) (c := UInt8.ofNat (v / 64 % 64 + 128))
      (d := UInt8.ofNat (v % 64 + 128)) (by omega)
      (by unfold IsTail; omega) (by unfold IsTail; omega) (by unfold IsTail; omega)
      (by omega) (by omega)
    rw [ha, hb, hc, hd] at h
    convert h using 1
    omega

theorem ofNat_eq_of_eq_toNat {n : Nat} {b : UInt8} (h : n = b.toNat) : UInt8.ofNat n = b := by
  rw [h, UInt8.ofNat_toNat]

/-- Only the bytes of a character spell its number. -/
theorem Spells.encode {bytes : Bytes} {n : Nat} (h : Spells bytes n) :
    String.utf8EncodeChar (Char.ofNat n) = bytes := by
  have hv := toNat_ofNat_of_isValid h.isValid
  unfold String.utf8EncodeChar
  rw [hv]
  dsimp only
  cases h with
  | @one a ha => rw [if_pos (by omega), UInt8.ofNat_toNat]
  | @two a b ha hb hn =>
      unfold IsTail at hb
      rw [if_neg (by omega), if_pos (by omega), ofNat_eq_of_eq_toNat (b := a) (by omega),
        ofNat_eq_of_eq_toNat (b := b) (by omega)]
  | @three a b c ha hb hc hn hs =>
      unfold IsTail at hb hc
      rw [if_neg (by omega), if_neg (by omega), if_pos (by omega),
        ofNat_eq_of_eq_toNat (b := a) (by omega), ofNat_eq_of_eq_toNat (b := b) (by omega),
        ofNat_eq_of_eq_toNat (b := c) (by omega)]
  | @four a b c d ha hb hc hd hn hs =>
      unfold IsTail at hb hc hd
      rw [if_neg (by omega), if_neg (by omega), if_neg (by omega),
        ofNat_eq_of_eq_toNat (b := a) (by omega), ofNat_eq_of_eq_toNat (b := b) (by omega),
        ofNat_eq_of_eq_toNat (b := c) (by omega), ofNat_eq_of_eq_toNat (b := d) (by omega)]

end Forms

section Pass

/-- What a first byte announces, by its number. -/
theorem lead_eq (a : UInt8) :
    lead a =
      if a.toNat < 0x80 then .single (Char.ofNat a.toNat)
      else if a.toNat < 0xc2 then .none
      else if a.toNat < 0xe0 then .several ⟨1, 0x80, 0xbf, a.toNat - 0xc0, 1⟩
      else if a.toNat = 0xe0 then .several ⟨2, 0xa0, 0xbf, 0, 1⟩
      else if a.toNat = 0xed then .several ⟨2, 0x80, 0x9f, 0xd, 1⟩
      else if a.toNat < 0xf0 then .several ⟨2, 0x80, 0xbf, a.toNat - 0xe0, 1⟩
      else if a.toNat = 0xf0 then .several ⟨3, 0x90, 0xbf, 0, 1⟩
      else if a.toNat < 0xf4 then .several ⟨3, 0x80, 0xbf, a.toNat - 0xf0, 1⟩
      else if a.toNat = 0xf4 then .several ⟨3, 0x80, 0x8f, 4, 1⟩
      else .none := by
  have eq_iff (n : UInt8) : a = n ↔ a.toNat = n.toNat := UInt8.toNat_inj.symm
  unfold lead
  simp only [UInt8.lt_iff_toNat_lt, eq_iff, UInt8.reduceToNat]

theorem lead_one {a : UInt8} (h : a.toNat < 0x80) : lead a = .single (Char.ofNat a.toNat) := by
  rw [lead_eq, if_pos h]

theorem lead_two {a : UInt8} (h : 0xc2 ≤ a.toNat ∧ a.toNat < 0xe0) :
    lead a = .several ⟨1, 0x80, 0xbf, a.toNat - 0xc0, 1⟩ := by
  rw [lead_eq, if_neg (by omega), if_neg (by omega), if_pos (by omega)]

/-- A second byte within the bounds is one that the three-byte forms allow. -/
theorem lead_three {a : UInt8} (h : 0xe0 ≤ a.toNat ∧ a.toNat < 0xf0) :
    ∃ low high : UInt8, lead a = .several ⟨2, low, high, a.toNat - 0xe0, 1⟩ ∧
      ∀ b : UInt8, (low ≤ b ∧ b ≤ high) ↔
        IsTail b ∧ (a.toNat = 0xe0 → 0xa0 ≤ b.toNat) ∧ (a.toNat = 0xed → b.toNat < 0xa0) := by
  rw [lead_eq, if_neg (by omega), if_neg (by omega), if_neg (by omega)]
  by_cases h0 : a.toNat = 0xe0
  · refine ⟨0xa0, 0xbf, by rw [h0]; rfl, fun b => ?_⟩
    simp only [UInt8.le_iff_toNat_le, UInt8.reduceToNat, IsTail]
    omega
  · by_cases hd : a.toNat = 0xed
    · refine ⟨0x80, 0x9f, by rw [hd]; rfl, fun b => ?_⟩
      simp only [UInt8.le_iff_toNat_le, UInt8.reduceToNat, IsTail]
      omega
    · refine ⟨0x80, 0xbf, by rw [if_neg h0, if_neg hd, if_pos h.2], fun b => ?_⟩
      simp only [UInt8.le_iff_toNat_le, UInt8.reduceToNat, IsTail]
      omega

/-- A second byte within the bounds is one that the four-byte forms allow. -/
theorem lead_four {a : UInt8} (h : 0xf0 ≤ a.toNat ∧ a.toNat < 0xf5) :
    ∃ low high : UInt8, lead a = .several ⟨3, low, high, a.toNat - 0xf0, 1⟩ ∧
      ∀ b : UInt8, (low ≤ b ∧ b ≤ high) ↔
        IsTail b ∧ (a.toNat = 0xf0 → 0x90 ≤ b.toNat) ∧ (a.toNat = 0xf4 → b.toNat < 0x90) := by
  rw [lead_eq, if_neg (by omega), if_neg (by omega), if_neg (by omega), if_neg (by omega),
    if_neg (by omega), if_neg (by omega)]
  by_cases h0 : a.toNat = 0xf0
  · refine ⟨0x90, 0xbf, by rw [h0]; rfl, fun b => ?_⟩
    simp only [UInt8.le_iff_toNat_le, UInt8.reduceToNat, IsTail]
    omega
  · by_cases h4 : a.toNat = 0xf4
    · refine ⟨0x80, 0x8f, by rw [h4]; rfl, fun b => ?_⟩
      simp only [UInt8.le_iff_toNat_le, UInt8.reduceToNat, IsTail]
      omega
    · refine ⟨0x80, 0xbf, by rw [if_neg h0, if_pos (by omega)], fun b => ?_⟩
      simp only [UInt8.le_iff_toNat_le, UInt8.reduceToNat, IsTail]
      omega

theorem lead_none {a : UInt8} (h : 0x80 ≤ a.toNat ∧ a.toNat < 0xc2 ∨ 0xf5 ≤ a.toNat) :
    lead a = .none := by
  rw [lead_eq, if_neg (by omega)]
  by_cases h2 : a.toNat < 0xc2
  · rw [if_pos h2]
  · rw [if_neg h2, if_neg (by omega), if_neg (by omega), if_neg (by omega), if_neg (by omega),
      if_neg (by omega), if_neg (by omega), if_neg (by omega)]

theorem tail_bounds (b : UInt8) : ((0x80 : UInt8) ≤ b ∧ b ≤ 0xbf) ↔ IsTail b := by
  simp only [UInt8.le_iff_toNat_le, UInt8.reduceToNat, IsTail]
  omega

theorem piecesFrom_several {a : UInt8} {p : Pending} (h : lead a = .several p) (rest : Bytes) :
    piecesFrom none (a :: rest) = piecesFrom (some p) rest := by
  simp only [piecesFrom, h]

/-- A continuation byte that is not the last one owed. -/
theorem piecesFrom_more {p : Pending} {b : UInt8} {k : Nat} (hb : p.low ≤ b ∧ b ≤ p.high)
    (ho : p.owed - 1 = k + 1) (rest : Bytes) :
    piecesFrom (some p) (b :: rest) = piecesFrom (some (p.extend b)) rest := by
  have hq : (p.extend b).owed ≠ 0 := by
    show p.owed - 1 ≠ 0
    omega
  simp only [piecesFrom, if_pos hb, if_neg hq]

/-- The last continuation byte that is owed. -/
theorem piecesFrom_last {p : Pending} {b : UInt8} (hb : p.low ≤ b ∧ b ≤ p.high)
    (ho : p.owed - 1 = 0) (rest : Bytes) :
    piecesFrom (some p) (b :: rest) =
      .char (Char.ofNat (p.bits * 64 + (b.toNat - 0x80))) :: piecesFrom none rest := by
  have hq : (p.extend b).owed = 0 := ho
  simp only [piecesFrom, if_pos hb, if_pos hq]
  rfl

/-- The pass takes a form for the character it spells. -/
theorem piecesFrom_spells {bytes : Bytes} {n : Nat} (h : Spells bytes n) (rest : Bytes) :
    piecesFrom none (bytes ++ rest) = .char (Char.ofNat n) :: piecesFrom none rest := by
  cases h with
  | one ha =>
      simp only [List.cons_append, List.nil_append, piecesFrom, lead_one ha]
  | two ha hb hn =>
      have hb' := hb
      unfold IsTail at hb'
      rw [List.cons_append, piecesFrom_several (lead_two (by omega)), List.cons_append,
        piecesFrom_last ((tail_bounds _).mpr hb) rfl, List.nil_append]
  | @three a b c ha hb hc hn hs =>
      have hb' := hb
      have hc' := hc
      unfold IsTail at hb' hc'
      obtain ⟨low, high, hl, hbounds⟩ := lead_three ha
      have hsecond := (hbounds b).mpr ⟨hb, by omega, hs⟩
      rw [List.cons_append, piecesFrom_several hl, List.cons_append,
        piecesFrom_more hsecond rfl, List.cons_append,
        piecesFrom_last ((tail_bounds _).mpr hc) rfl, List.nil_append]
      rfl
  | @four a b c d ha hb hc hd hn hs =>
      have hb' := hb
      have hc' := hc
      have hd' := hd
      unfold IsTail at hb' hc' hd'
      obtain ⟨low, high, hl, hbounds⟩ := lead_four ha
      have hsecond := (hbounds b).mpr ⟨hb, by omega, hs⟩
      rw [List.cons_append, piecesFrom_several hl, List.cons_append,
        piecesFrom_more hsecond rfl, List.cons_append,
        piecesFrom_more ((tail_bounds _).mpr hc) rfl, List.cons_append,
        piecesFrom_last ((tail_bounds _).mpr hd) rfl, List.nil_append]
      rfl

theorem piecesFrom_some_ne_nil (p : Pending) : ∀ bytes : Bytes, piecesFrom (some p) bytes ≠ []
  | [] => by simp [piecesFrom]
  | b :: rest => by
      unfold piecesFrom
      dsimp only
      split_ifs
      · simp
      · exact piecesFrom_some_ne_nil (p.extend b) rest
      · simp

theorem piecesFrom_cons_ne_nil (a : UInt8) (rest : Bytes) : piecesFrom none (a :: rest) ≠ [] := by
  cases hl : lead a with
  | single c => simp [piecesFrom, hl]
  | several p =>
      rw [piecesFrom_several hl]
      exact piecesFrom_some_ne_nil p rest
  | none => simp [piecesFrom, hl]

/-- A character under way that is completed was given a byte within the bounds. -/
theorem exists_of_piecesFrom_some {p : Pending} {bytes : Bytes} {c : Char} {ps : List Piece}
    (h : piecesFrom (some p) bytes = .char c :: ps) :
    ∃ b rest, bytes = b :: rest ∧ (p.low ≤ b ∧ b ≤ p.high) ∧
      piecesFrom (some p) (b :: rest) = .char c :: ps := by
  cases bytes with
  | nil => simp [piecesFrom] at h
  | cons b rest =>
      by_cases hb : p.low ≤ b ∧ b ≤ p.high
      · exact ⟨b, rest, rfl, hb, h⟩
      · simp [piecesFrom, hb] at h

/-- A character that the pass finds was spelt by a form. -/
theorem spells_of_piecesFrom {bytes : Bytes} {c : Char} {ps : List Piece}
    (h : piecesFrom none bytes = .char c :: ps) :
    ∃ front rest n, bytes = front ++ rest ∧ Spells front n ∧ c = Char.ofNat n ∧
      piecesFrom none rest = ps := by
  cases bytes with
  | nil => simp [piecesFrom] at h
  | cons a rest =>
      have range : a.toNat < 0x80 ∨ (0xc2 ≤ a.toNat ∧ a.toNat < 0xe0) ∨
          (0xe0 ≤ a.toNat ∧ a.toNat < 0xf0) ∨ (0xf0 ≤ a.toNat ∧ a.toNat < 0xf5) ∨
          (0x80 ≤ a.toNat ∧ a.toNat < 0xc2 ∨ 0xf5 ≤ a.toNat) := by omega
      rcases range with ha | ha | ha | ha | ha
      · simp only [piecesFrom, lead_one ha, List.cons.injEq, Piece.char.injEq] at h
        exact ⟨[a], rest, a.toNat, rfl, .one ha, h.1.symm, h.2⟩
      · rw [piecesFrom_several (lead_two ha)] at h
        obtain ⟨b, rest, rfl, hb, h⟩ := exists_of_piecesFrom_some h
        have hb' := (tail_bounds b).mp hb
        have hb'' := hb'
        unfold IsTail at hb''
        rw [piecesFrom_last hb rfl] at h
        simp only [List.cons.injEq, Piece.char.injEq] at h
        exact ⟨[a, b], rest, _, rfl, .two ⟨by omega, ha.2⟩ hb' (by omega), h.1.symm, h.2⟩
      · obtain ⟨low, high, hl, hbounds⟩ := lead_three ha
        rw [piecesFrom_several hl] at h
        obtain ⟨b, rest, rfl, hb, h⟩ := exists_of_piecesFrom_some h
        rw [piecesFrom_more hb rfl] at h
        obtain ⟨c', rest, rfl, hc, h⟩ := exists_of_piecesFrom_some h
        rw [piecesFrom_last hc rfl] at h
        simp only [List.cons.injEq, Piece.char.injEq] at h
        obtain ⟨hb', hlow, hhigh⟩ := (hbounds b).mp hb
        have hb'' := hb'
        unfold IsTail at hb''
        exact ⟨[a, b, c'], rest, _, rfl,
          .three ha hb' ((tail_bounds c').mp hc) (by omega) hhigh, h.1.symm, h.2⟩
      · obtain ⟨low, high, hl, hbounds⟩ := lead_four ha
        rw [piecesFrom_several hl] at h
        obtain ⟨b, rest, rfl, hb, h⟩ := exists_of_piecesFrom_some h
        rw [piecesFrom_more hb rfl] at h
        obtain ⟨c', rest, rfl, hc, h⟩ := exists_of_piecesFrom_some h
        rw [piecesFrom_more hc rfl] at h
        obtain ⟨d, rest, rfl, hd, h⟩ := exists_of_piecesFrom_some h
        rw [piecesFrom_last hd rfl] at h
        simp only [List.cons.injEq, Piece.char.injEq] at h
        obtain ⟨hb', hlow, hhigh⟩ := (hbounds b).mp hb
        have hb'' := hb'
        unfold IsTail at hb''
        exact ⟨[a, b, c', d], rest, _, rfl,
          .four ha hb' ((tail_bounds c').mp hc) ((tail_bounds d).mp hd) (by omega) hhigh,
          h.1.symm, h.2⟩
      · simp [piecesFrom, lead_none ha] at h

end Pass

section Texts

/-- The bytes of some text. -/
def IsText (bytes : Bytes) : Prop :=
  ∃ s : String, encode s = bytes

theorem encode_ofList (cs : List Char) :
    encode (String.ofList cs) = cs.flatMap String.utf8EncodeChar := by
  rw [encode, String.toList_ofList]

theorem isText_iff {bytes : Bytes} :
    IsText bytes ↔ ∃ cs : List Char, cs.flatMap String.utf8EncodeChar = bytes := by
  constructor
  · rintro ⟨s, hs⟩
    exact ⟨s.toList, hs⟩
  · rintro ⟨cs, hcs⟩
    exact ⟨String.ofList cs, by rw [encode_ofList, hcs]⟩

/-- The pieces are all characters exactly if the bytes are those of the characters. -/
theorem pieces_eq_map_iff {bytes : Bytes} {cs : List Char} :
    pieces bytes = cs.map .char ↔ bytes = cs.flatMap String.utf8EncodeChar := by
  unfold pieces
  induction cs generalizing bytes with
  | nil =>
      constructor
      · intro h
        cases bytes with
        | nil => rfl
        | cons a rest => exact absurd h (piecesFrom_cons_ne_nil a rest)
      · rintro rfl
        rfl
  | cons c cs ih =>
      constructor
      · intro h
        rw [List.map_cons] at h
        obtain ⟨front, rest, n, rfl, hfront, rfl, hrest⟩ := spells_of_piecesFrom h
        rw [List.flatMap_cons, hfront.encode, ih.mp hrest]
      · rintro rfl
        rw [List.flatMap_cons, piecesFrom_spells (spells_utf8EncodeChar c), Char.ofNat_toNat,
          List.map_cons, ih.mpr rfl]

/-- The pieces of the bytes of a text are its characters. -/
theorem pieces_encode (s : String) : pieces (encode s) = s.toList.map .char :=
  pieces_eq_map_iff.mpr rfl

@[simp] theorem lossy_encode (s : String) : lossy (encode s) = s := by
  have hshown : Piece.shown ∘ Piece.char = id := rfl
  rw [lossy, pieces_encode, List.map_map, hshown, List.map_id, String.ofList_toList]

theorem encode_injective {s t : String} (h : encode s = encode t) : s = t := by
  rw [← lossy_encode s, h, lossy_encode]

theorem defectFrom_eq_none_iff {ps : List Piece} (offset : Nat) :
    defectFrom offset ps = none ↔ ∃ cs : List Char, ps = cs.map .char := by
  induction ps generalizing offset with
  | nil => exact ⟨fun _ => ⟨[], rfl⟩, fun _ => rfl⟩
  | cons p ps ih =>
      cases p with
      | char c =>
          rw [defectFrom, ih]
          constructor
          · rintro ⟨cs, rfl⟩
            exact ⟨c :: cs, rfl⟩
          · rintro ⟨cs, hcs⟩
            cases cs with
            | nil => simp at hcs
            | cons d ds => exact ⟨ds, (List.cons.inj hcs).2⟩
      | invalid n =>
          constructor
          · intro h
            simp [defectFrom] at h
          · rintro ⟨cs, hcs⟩
            cases cs <;> simp at hcs
      | incomplete n =>
          constructor
          · intro h
            simp [defectFrom] at h
          · rintro ⟨cs, hcs⟩
            cases cs <;> simp at hcs

/-- The bytes of a text are those without a defect. -/
theorem defect?_eq_none_iff {bytes : Bytes} : defect? bytes = none ↔ IsText bytes := by
  rw [defect?, defectFrom_eq_none_iff, isText_iff]
  constructor
  · rintro ⟨cs, hcs⟩
    exact ⟨cs, (pieces_eq_map_iff.mp hcs).symm⟩
  · rintro ⟨cs, hcs⟩
    exact ⟨cs, pieces_eq_map_iff.mpr hcs.symm⟩

theorem encode_lossy {bytes : Bytes} (h : IsText bytes) : encode (lossy bytes) = bytes := by
  obtain ⟨s, rfl⟩ := h
  rw [lossy_encode]

/-- **Decoding and encoding are inverse to each other.** -/
theorem decode?_eq_some_iff {bytes : Bytes} {s : String} :
    decode? bytes = some s ↔ bytes = encode s := by
  have hdecode : decode? bytes = if defect? bytes = none then some (lossy bytes) else none := by
    unfold decode? defect? lossy
    cases h : defectFrom 0 (pieces bytes) with
    | none => simp [h]
    | some d => simp [h]
  rw [hdecode]
  by_cases h : IsText bytes
  · rw [if_pos (defect?_eq_none_iff.mpr h), Option.some.injEq]
    constructor
    · rintro rfl
      exact (encode_lossy h).symm
    · rintro rfl
      exact lossy_encode s
  · rw [if_neg (fun hd => h (defect?_eq_none_iff.mp hd))]
    constructor
    · intro hs
      cases hs
    · rintro rfl
      exact absurd ⟨s, rfl⟩ h

@[simp] theorem encode_append (s t : String) : encode (s ++ t) = encode s ++ encode t := by
  rw [encode, String.toList_append, List.flatMap_append]
  rfl

/-- An ASCII byte is the bytes of a character. -/
theorem utf8EncodeChar_ascii {a : UInt8} (h : a.toNat < 0x80) :
    String.utf8EncodeChar (Char.ofNat a.toNat) = [a] :=
  (Spells.one h).encode

/-- An ASCII byte among the bytes of characters is one of the characters. -/
theorem exists_split_ascii {x : UInt8} (hx : x.toNat < 0x80) {right : Bytes} :
    ∀ {cs : List Char} {left : Bytes},
      cs.flatMap String.utf8EncodeChar = left ++ x :: right →
        ∃ before after : List Char, cs = before ++ Char.ofNat x.toNat :: after ∧
          before.flatMap String.utf8EncodeChar = left ∧
          after.flatMap String.utf8EncodeChar = right
  | [], left, h => by simp at h
  | c :: cs, left, h => by
      rw [List.flatMap_cons] at h
      rcases List.append_eq_append_iff.mp h with ⟨more, hleft, hrest⟩ | ⟨more, hc, hrest⟩
      · obtain ⟨before, after, rfl, rfl, rfl⟩ := exists_split_ascii hx hrest
        exact ⟨c :: before, after, rfl, by rw [List.flatMap_cons, hleft], rfl⟩
      · cases more with
        | nil =>
            rw [List.append_nil] at hc
            have hnil : cs.flatMap String.utf8EncodeChar = [] ++ x :: right := hrest.symm
            obtain ⟨before, after, rfl, hbefore, rfl⟩ := exists_split_ascii hx hnil
            refine ⟨c :: before, after, rfl, ?_, rfl⟩
            rw [List.flatMap_cons, hbefore, List.append_nil, hc]
        | cons y more =>
            rw [List.cons_append, List.cons.injEq] at hrest
            obtain ⟨rfl, hright⟩ := hrest
            rcases (spells_utf8EncodeChar c).ascii_or with ⟨a, ha, hca, hn⟩ | hlarge
            · rw [hca] at hc
              obtain ⟨rfl, hxa⟩ | ⟨rest, rfl, hxa⟩ := List.append_eq_cons_iff.mp hc.symm
              · obtain ⟨rfl, rfl⟩ := List.cons.inj hxa
                refine ⟨[], cs, ?_, rfl, hright.symm⟩
                rw [← hn, Char.ofNat_toNat, List.nil_append]
              · simp at hxa
            · have := hlarge x (by rw [hc]; simp)
              omega

/-- A byte string cut at an ASCII byte is text exactly if both parts are. -/
theorem isText_append_ascii {x : UInt8} (hx : x.toNat < 0x80) {left right : Bytes} :
    IsText (left ++ x :: right) ↔ IsText left ∧ IsText right := by
  simp only [isText_iff]
  constructor
  · rintro ⟨cs, hcs⟩
    obtain ⟨before, after, -, hbefore, hafter⟩ := exists_split_ascii hx hcs
    exact ⟨⟨before, hbefore⟩, after, hafter⟩
  · rintro ⟨⟨before, rfl⟩, after, rfl⟩
    refine ⟨before ++ Char.ofNat x.toNat :: after, ?_⟩
    rw [List.flatMap_append, List.flatMap_cons, utf8EncodeChar_ascii hx, List.singleton_append]

theorem isText_of_ascii : ∀ {bytes : Bytes}, (∀ b ∈ bytes, b.toNat < 0x80) → IsText bytes
  | [], _ => ⟨"", rfl⟩
  | b :: rest, h => by
      have hrest : IsText rest := isText_of_ascii fun c hc => h c (List.mem_cons_of_mem _ hc)
      have hnil : IsText [] := ⟨"", rfl⟩
      exact (isText_append_ascii (h b (by simp))).mpr ⟨hnil, hrest⟩

end Texts

section Lossy

theorem encode_lossy_eq (bytes : Bytes) :
    encode (lossy bytes) = (pieces bytes).flatMap fun p => String.utf8EncodeChar p.shown := by
  rw [lossy, encode_ofList, List.flatMap_map]

/-- What follows the first piece is found by starting again further on. -/
theorem exists_of_piecesFrom_cons {st : Option Pending} {bytes : Bytes} {p : Piece}
    {ps : List Piece} (h : piecesFrom st bytes = p :: ps) :
    ∃ front rest, bytes = front ++ rest ∧ piecesFrom none rest = ps := by
  induction bytes generalizing st with
  | nil =>
      cases st with
      | none => simp [piecesFrom] at h
      | some q =>
          simp only [piecesFrom, List.cons.injEq] at h
          exact ⟨[], [], rfl, h.2⟩
  | cons b rest ih =>
      cases st with
      | none =>
          cases hl : lead b with
          | single c =>
              simp only [piecesFrom, hl, List.cons.injEq] at h
              exact ⟨[b], rest, rfl, h.2⟩
          | several q =>
              rw [piecesFrom_several hl] at h
              obtain ⟨front, rest', rfl, hps⟩ := ih h
              exact ⟨b :: front, rest', rfl, hps⟩
          | none =>
              simp only [piecesFrom, hl, List.cons.injEq] at h
              exact ⟨[b], rest, rfl, h.2⟩
      | some q =>
          by_cases hb : q.low ≤ b ∧ b ≤ q.high
          · by_cases ho : (q.extend b).owed = 0
            · simp only [piecesFrom, if_pos hb, if_pos ho, List.cons.injEq] at h
              exact ⟨[b], rest, rfl, h.2⟩
            · simp only [piecesFrom, if_pos hb, if_neg ho] at h
              obtain ⟨front, rest', rfl, hps⟩ := ih h
              exact ⟨b :: front, rest', rfl, hps⟩
          · -- the byte that breaks a character off is looked at again
            simp only [piecesFrom, if_neg hb, List.cons.injEq] at h
            exact ⟨[], b :: rest, rfl, h.2⟩

/-- A character among the pieces stands in the bytes. -/
theorem isInfix_of_char_mem {c : Char} {ps : List Piece} (hc : .char c ∈ ps) :
    ∀ {bytes : Bytes}, pieces bytes = ps → String.utf8EncodeChar c <:+: bytes := by
  unfold pieces
  induction ps with
  | nil => cases hc
  | cons p ps ih =>
      intro bytes h
      rcases List.mem_cons.mp hc with rfl | hc
      · obtain ⟨front, rest, n, rfl, hfront, rfl, -⟩ := spells_of_piecesFrom h
        rw [hfront.encode]
        exact ⟨[], rest, rfl⟩
      · obtain ⟨front, rest, rfl, hrest⟩ := exists_of_piecesFrom_cons h
        obtain ⟨left, right, heq⟩ := ih hc hrest
        exact ⟨front ++ left, right, by rw [← heq]; simp⟩

theorem Piece.shown_cases (p : Piece) :
    (∃ c, p = .char c) ∨ String.utf8EncodeChar p.shown = [0xef, 0xbf, 0xbd] := by
  have hreplacement : String.utf8EncodeChar '\uFFFD' = [0xef, 0xbf, 0xbd] := by decide
  cases p with
  | char c => exact Or.inl ⟨c, rfl⟩
  | invalid n => exact Or.inr hreplacement
  | incomplete n => exact Or.inr hreplacement

/-- Showing defects adds no ASCII. -/
theorem mem_of_mem_encode_lossy {x : UInt8} (hx : x.toNat < 0x80) {bytes : Bytes}
    (h : x ∈ encode (lossy bytes)) : x ∈ bytes := by
  rw [encode_lossy_eq, List.mem_flatMap] at h
  obtain ⟨p, hp, hxp⟩ := h
  rcases p.shown_cases with ⟨c, rfl⟩ | hshown
  · exact (isInfix_of_char_mem hp rfl).subset hxp
  · rw [hshown] at hxp
    simp only [List.mem_cons, List.not_mem_nil, or_false] at hxp
    rcases hxp with rfl | rfl | rfl <;> simp at hx

/-- Bytes that are shown as ASCII are shown as they are. -/
theorem eq_of_encode_lossy_ascii {bytes shown : Bytes} (h : encode (lossy bytes) = shown)
    (hascii : ∀ b ∈ shown, b.toNat < 0x80) : bytes = shown := by
  have hchars : ∀ p ∈ pieces bytes, Piece.char p.shown = p := by
    intro p hp
    rcases p.shown_cases with ⟨c, rfl⟩ | hshown
    · rfl
    · have hmem : (0xef : UInt8) ∈ encode (lossy bytes) := by
        rw [encode_lossy_eq, List.mem_flatMap]
        exact ⟨p, hp, by rw [hshown]; simp⟩
      rw [h] at hmem
      have := hascii _ hmem
      simp at this
  have hpieces : pieces bytes = ((pieces bytes).map Piece.shown).map .char := by
    rw [List.map_map]
    exact ((List.map_congr_left hchars).trans (List.map_id _)).symm
  rw [← h, encode_lossy_eq, ← List.flatMap_map]
  exact pieces_eq_map_iff.mp hpieces

theorem lead_low {a : UInt8} {p : Pending} (h : lead a = .several p) : 0x80 ≤ p.low := by
  unfold lead at h
  split_ifs at h <;> cases h <;> simp

/-- An ASCII byte ends what is under way and stands for itself. -/
theorem shown_piecesFrom_ascii {x : UInt8} (hx : x.toNat < 0x80) (left right : Bytes)
    {st : Option Pending} (hst : ∀ p ∈ st, 0x80 ≤ p.low) :
    (piecesFrom st (left ++ x :: right)).map Piece.shown =
      (piecesFrom st left).map Piece.shown ++
        Char.ofNat x.toNat :: (pieces right).map Piece.shown := by
  induction left generalizing st with
  | nil =>
      cases st with
      | none => simp [piecesFrom, lead_one hx, Piece.shown, pieces]
      | some p =>
          have hlow : ¬(p.low ≤ x ∧ x ≤ p.high) := by
            have h := hst p rfl
            simp only [UInt8.le_iff_toNat_le, UInt8.reduceToNat] at h ⊢
            omega
          simp [piecesFrom, hlow, lead_one hx, Piece.shown, pieces]
  | cons b left ih =>
      have hnone : (piecesFrom none (b :: left ++ x :: right)).map Piece.shown =
          (piecesFrom none (b :: left)).map Piece.shown ++
            Char.ofNat x.toNat :: (pieces right).map Piece.shown := by
        cases hl : lead b with
        | single c => simp [piecesFrom, hl, ih]
        | several q =>
            rw [List.cons_append, piecesFrom_several hl, piecesFrom_several hl]
            exact ih (by simpa using lead_low hl)
        | none => simp [piecesFrom, hl, ih]
      cases st with
      | none => exact hnone
      | some p =>
          by_cases hb : p.low ≤ b ∧ b ≤ p.high
          · by_cases ho : (p.extend b).owed = 0
            · simp [piecesFrom, hb, ho, ih]
            · have hnext : ∀ q ∈ some (p.extend b), 0x80 ≤ q.low := by simp [Pending.extend]
              have hrest := ih hnext
              simpa [piecesFrom, hb, ho] using hrest
          · simp only [piecesFrom, List.cons_append, if_neg hb, List.map_cons] at hnone ⊢
            rw [hnone]

/-- Defects are shown alike on both sides of an ASCII byte. -/
theorem encode_lossy_append_ascii {x : UInt8} (hx : x.toNat < 0x80) (left right : Bytes) :
    encode (lossy (left ++ x :: right)) = encode (lossy left) ++ x :: encode (lossy right) := by
  have hnone : ∀ p ∈ (none : Option Pending), 0x80 ≤ p.low := by simp
  have hshown := shown_piecesFrom_ascii hx left right hnone
  rw [lossy, pieces, hshown, encode_ofList, List.flatMap_append, List.flatMap_cons,
    utf8EncodeChar_ascii hx, ← encode_ofList, ← encode_ofList]
  rfl

end Lossy

end Utf8
end GoTags
