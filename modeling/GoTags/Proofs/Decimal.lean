import GoTags.Proofs.Utf8
import GoTags.Text.Decimal

/-!
# Decimal numbers read back

Writing a number and reading it gives the number again, as long as it is below
the limit of lengths. What can be read as a number consists of digits and perhaps
a sign, so that it is text and holds neither a comma nor a newline.

**Results.**
* `read?_write`: a number is read back from its canonical form.
* `read?_eq_some_iff`: which byte strings are read as which numbers.
-/

namespace GoTags
namespace Decimal

/-- The byte of an ASCII digit. -/
def IsDigit (b : UInt8) : Prop :=
  0x30 ≤ b.toNat ∧ b.toNat ≤ 0x39

instance (b : UInt8) : Decidable (IsDigit b) :=
  inferInstanceAs (Decidable (_ ∧ _))

theorem digit?_eq_some_iff {b : UInt8} {d : Nat} :
    digit? b = some d ↔ IsDigit b ∧ b.toNat - 0x30 = d := by
  rw [digit?, Option.ite_none_right_eq_some, Option.some.injEq, UInt8.le_iff_toNat_le,
    UInt8.le_iff_toNat_le]
  rfl

theorem digit?_of_isDigit {b : UInt8} (h : IsDigit b) : digit? b = some (b.toNat - 0x30) :=
  digit?_eq_some_iff.mpr ⟨h, rfl⟩

theorem toNat_of_isDigit {c : Char} (h : c.isDigit = true) :
    (UInt8.ofNat c.toNat).toNat = c.toNat ∧ IsDigit (UInt8.ofNat c.toNat) := by
  rw [Char.isDigit_iff_toNat] at h
  simp only [Char.reduceToNat] at h
  have hc : (UInt8.ofNat c.toNat).toNat = c.toNat := UInt8.toNat_ofNat_of_lt' (by
    show c.toNat < 256
    omega)
  exact ⟨hc, by unfold IsDigit; omega⟩

theorem isDigit_of_mem_write {n : Nat} {b : UInt8} (h : b ∈ write n) : IsDigit b := by
  obtain ⟨c, hc, rfl⟩ := List.mem_map.mp h
  exact (toNat_of_isDigit (Nat.isDigit_of_mem_toDigits (by decide) (by decide) hc)).2

theorem not_mem_write (n : Nat) {b : UInt8} (h : b.toNat < 0x30) : b ∉ write n :=
  fun hb => Nat.not_le.mpr h (isDigit_of_mem_write hb).1

theorem write_ne_nil (n : Nat) : write n ≠ [] := by
  simp [write]

/-- Digits are read as the number they are written for. -/
theorem digitsFrom?_map (n : Nat) : ∀ cs : List Char, (∀ c ∈ cs, c.isDigit = true) →
    digitsFrom? n (cs.map fun c => UInt8.ofNat c.toNat) = some (Nat.ofDigitChars 10 cs n)
  | [], _ => by simp [digitsFrom?]
  | c :: cs, h => by
      obtain ⟨hc, hdigit⟩ := toNat_of_isDigit (h c (by simp))
      have ih := digitsFrom?_map (n * 10 + (c.toNat - 0x30)) cs
        (fun d hd => h d (List.mem_cons_of_mem _ hd))
      rw [List.map_cons, digitsFrom?, digit?_of_isDigit hdigit, hc]
      dsimp only
      rw [ih, Nat.ofDigitChars_cons, Nat.mul_comm n 10]
      rfl

theorem digits?_write (n : Nat) : digits? (write n) = some n := by
  have hdigits : ∀ c ∈ Nat.toDigits 10 n, c.isDigit = true :=
    fun c hc => Nat.isDigit_of_mem_toDigits (by decide) (by decide) hc
  have hfrom : digitsFrom? 0 (write n) = some n := by
    rw [write, digitsFrom?_map 0 _ hdigits, Nat.ofDigitChars_ten_toDigits]
  cases hw : write n with
  | nil => exact absurd hw (write_ne_nil n)
  | cons b rest => rwa [hw] at hfrom

/-- A number below the limit is read back from its written form. -/
theorem read?_write {n : Nat} (h : n < limit) : read? (write n) = some n := by
  have hdigits : read? (write n) = (digits? (write n)).filter (· < limit) := by
    unfold read?
    cases hw : write n with
    | nil => exact absurd hw (write_ne_nil n)
    | cons b rest =>
        have hb : IsDigit b := isDigit_of_mem_write (n := n) (by rw [hw]; simp)
        have hplus : b ≠ 0x2b := by
          rintro rfl
          unfold IsDigit at hb
          simp at hb
        split
        · rename_i heq
          exact absurd (List.cons.inj heq).1 hplus
        · rfl
  rw [hdigits, digits?_write]
  simp [h]

/-- The number that digits stand for, the most significant one first. -/
def valueOf (digits : Bytes) : Nat :=
  Nat.ofDigits 10 (digits.reverse.map fun b => b.toNat - 0x30)

theorem valueOf_cons (b : UInt8) (digits : Bytes) :
    valueOf (b :: digits) = (b.toNat - 0x30) * 10 ^ digits.length + valueOf digits := by
  unfold valueOf
  rw [List.reverse_cons, List.map_append, Nat.ofDigits_append, List.length_map,
    List.length_reverse, List.map_singleton, Nat.ofDigits_singleton]
  ring

/-- A number as it may be written: perhaps a plus sign, then one or more digits, for a
value below the limit. -/
def Denotes (bytes : Bytes) (n : Nat) : Prop :=
  ∃ sign digits : Bytes, bytes = sign ++ digits ∧ (sign = [] ∨ sign = [0x2b]) ∧
    digits ≠ [] ∧ (∀ b ∈ digits, IsDigit b) ∧ valueOf digits = n ∧ n < limit

theorem digitsFrom?_eq_some_iff {bytes : Bytes} {k n : Nat} :
    digitsFrom? k bytes = some n ↔
      (∀ b ∈ bytes, IsDigit b) ∧ k * 10 ^ bytes.length + valueOf bytes = n := by
  induction bytes generalizing k with
  | nil => simp [digitsFrom?, valueOf]
  | cons b rest ih =>
      rw [digitsFrom?, valueOf_cons, List.forall_mem_cons, List.length_cons, Nat.pow_succ]
      cases hd : digit? b with
      | none =>
          have hb : ¬IsDigit b := by
            intro hb
            simp [digit?_of_isDigit hb] at hd
          simp [hb]
      | some d =>
          obtain ⟨hb, rfl⟩ := digit?_eq_some_iff.mp hd
          dsimp only
          rw [ih, and_iff_right hb]
          ring_nf

theorem digits?_eq_some_iff {bytes : Bytes} {n : Nat} :
    digits? bytes = some n ↔ bytes ≠ [] ∧ (∀ b ∈ bytes, IsDigit b) ∧ valueOf bytes = n := by
  cases bytes with
  | nil => simp [digits?]
  | cons b rest => simp [digits?, digitsFrom?_eq_some_iff]

theorem not_isDigit_plus : ¬IsDigit 0x2b := by
  unfold IsDigit
  decide

/-- A number is read exactly where one is written, with or without a sign. -/
theorem read?_eq_some_iff {bytes : Bytes} {n : Nat} :
    read? bytes = some n ↔ Denotes bytes n := by
  unfold read?
  dsimp only
  rw [Option.filter_eq_some_iff, decide_eq_true_iff]
  constructor
  · rintro ⟨h, hn⟩
    split at h
    · rename_i rest
      obtain ⟨hne, hdigits, hvalue⟩ := digits?_eq_some_iff.mp h
      exact ⟨[0x2b], rest, rfl, Or.inr rfl, hne, hdigits, hvalue, hn⟩
    · obtain ⟨hne, hdigits, hvalue⟩ := digits?_eq_some_iff.mp h
      exact ⟨[], bytes, rfl, Or.inl rfl, hne, hdigits, hvalue, hn⟩
  · rintro ⟨sign, digits, rfl, hsign, hne, hdigits, hvalue, hn⟩
    have h := digits?_eq_some_iff.mpr ⟨hne, hdigits, hvalue⟩
    refine ⟨?_, hn⟩
    rcases hsign with rfl | rfl
    · rw [List.nil_append]
      split
      · exact absurd (hdigits 0x2b List.mem_cons_self) not_isDigit_plus
      · exact h
    · exact h

/-- What is read as a number consists of digits, but for a sign in front. -/
theorem mem_of_read? {bytes : Bytes} {n : Nat} (h : read? bytes = some n) :
    ∀ b ∈ bytes, b = 0x2b ∨ IsDigit b := by
  obtain ⟨sign, digits, rfl, hsign, -, hdigits, -⟩ := read?_eq_some_iff.mp h
  intro b hb
  rcases List.mem_append.mp hb with hb | hb
  · rcases hsign with rfl | rfl
    · cases hb
    · exact Or.inl (List.mem_singleton.mp hb)
  · exact Or.inr (hdigits b hb)

theorem not_mem_of_read? {bytes : Bytes} {n : Nat} (h : read? bytes = some n) {b : UInt8}
    (hplus : b ≠ 0x2b) (hdigit : ¬ IsDigit b) : b ∉ bytes := by
  intro hb
  rcases mem_of_read? h b hb with rfl | hd
  · exact hplus rfl
  · exact hdigit hd

theorem isText_of_read? {bytes : Bytes} {n : Nat} (h : read? bytes = some n) :
    Utf8.IsText bytes := by
  apply Utf8.isText_of_ascii
  intro b hb
  rcases mem_of_read? h b hb with rfl | hd
  · decide
  · unfold IsDigit at hd
    omega

end Decimal
end GoTags
