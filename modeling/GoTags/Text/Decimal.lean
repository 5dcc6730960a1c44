import GoTags.Text.Bytes

/-!
# Decimal numbers as bytes

Lengths, lines and offsets are written in decimal, and a section length is read
back. Writing gives the canonical form: no sign, no leading zero but for zero
itself. Reading is more generous: one `+` may lead and zeros may follow it, and
a number has to stay below `2 ^ 64`.
-/

namespace GoTags
namespace Decimal

section Defs

/-- The bytes of the canonical decimal form. -/
def write (n : Nat) : Bytes :=
  (Nat.toDigits 10 n).map fun c => UInt8.ofNat c.toNat

/-- The value of a digit. -/
def digit? (b : UInt8) : Option Nat :=
  if 0x30 ≤ b ∧ b ≤ 0x39 then some (b.toNat - 0x30) else none

/-- The value of digits that follow a number read so far. -/
def digitsFrom? : Nat → Bytes → Option Nat
  | n, [] => some n
  | n, b :: rest =>
      match digit? b with
      | some d => digitsFrom? (n * 10 + d) rest
      | none => none

/-- The value of one or more digits. -/
def digits? : Bytes → Option Nat
  | [] => none
  | b :: rest => digitsFrom? 0 (b :: rest)

/-- The first number that is too large to be a length. -/
def limit : Nat := Nat.pow 2 64

/-- The value of a decimal number with an optional leading `+`, below `limit`. -/
def read? (bytes : Bytes) : Option Nat :=
  let value :=
    match bytes with
    | 0x2b :: rest => digits? rest
    | other => digits? other
  value.filter (· < limit)

end Defs

end Decimal
end GoTags
