import GoTags.Text.Bytes

/-!
# UTF-8

**Input.** A byte string.

**Algorithm.** One pass with a small state: between characters, or inside one
with a number of continuation bytes still owed and bounds for the next of them.
A byte outside the bounds ends the unfinished character, which is then a defect
of as many bytes as were read, and is looked at again as a first byte. The pass
yields the list of `Piece`s that the byte string is made of.

**Results.** Everything else is read off the pieces: whether the bytes are text,
where the first defect lies and how long it is, and the text in which every
defect is shown as one replacement character.
-/

namespace GoTags
namespace Utf8

section Defs

/-- A stretch of a byte string: a character, a defect, or the defect of a
character that the end cuts off. -/
inductive Piece where
  | char (c : Char)
  | invalid (width : Nat)
  | incomplete (width : Nat)
  deriving DecidableEq, Repr

/-- A character under way: the continuation bytes owed, the bounds of the next
one, the bits so far and the bytes read. -/
structure Pending where
  owed : Nat
  low : UInt8
  high : UInt8
  bits : Nat
  read : Nat

/-- What a first byte announces: a character of its own, more bytes, or nothing. -/
inductive Lead where
  | single (c : Char)
  | several (p : Pending)
  | none

/-- The meaning of a byte at the start of a character. The bounds for the second
byte shut out overlong forms, surrogates and values above `0x10ffff`. -/
def lead (b : UInt8) : Lead :=
  if b < 0x80 then .single (Char.ofNat b.toNat)
  else if b < 0xc2 then .none
  else if b < 0xe0 then .several ⟨1, 0x80, 0xbf, b.toNat - 0xc0, 1⟩
  else if b = 0xe0 then .several ⟨2, 0xa0, 0xbf, 0, 1⟩
  else if b = 0xed then .several ⟨2, 0x80, 0x9f, 0xd, 1⟩
  else if b < 0xf0 then .several ⟨2, 0x80, 0xbf, b.toNat - 0xe0, 1⟩
  else if b = 0xf0 then .several ⟨3, 0x90, 0xbf, 0, 1⟩
  else if b < 0xf4 then .several ⟨3, 0x80, 0xbf, b.toNat - 0xf0, 1⟩
  else if b = 0xf4 then .several ⟨3, 0x80, 0x8f, 4, 1⟩
  else .none

/-- A character under way after one more continuation byte. -/
def Pending.extend (p : Pending) (b : UInt8) : Pending :=
  ⟨p.owed - 1, 0x80, 0xbf, p.bits * 64 + (b.toNat - 0x80), p.read + 1⟩

/-- The pieces of a byte string, given the character under way. -/
def piecesFrom : Option Pending → Bytes → List Piece
  | none, [] => []
  | some p, [] => [.incomplete p.read]
  | none, b :: rest =>
      match lead b with
      | .single c => .char c :: piecesFrom none rest
      | .several p => piecesFrom (some p) rest
      | .none => .invalid 1 :: piecesFrom none rest
  | some p, b :: rest =>
      if p.low ≤ b ∧ b ≤ p.high then
        let q := p.extend b
        if q.owed = 0 then .char (Char.ofNat q.bits) :: piecesFrom none rest
        else piecesFrom (some q) rest
      else
        .invalid p.read ::
          match lead b with
          | .single c => .char c :: piecesFrom none rest
          | .several q => piecesFrom (some q) rest
          | .none => .invalid 1 :: piecesFrom none rest

/-- The pieces of a byte string, in order. -/
def pieces (bytes : Bytes) : List Piece :=
  piecesFrom none bytes

/-- The number of bytes of a piece. -/
def Piece.width : Piece → Nat
  | .char c => c.utf8Size
  | .invalid n => n
  | .incomplete n => n

/-- The character that shows a piece: a defect is shown as U+FFFD. -/
def Piece.shown : Piece → Char
  | .char c => c
  | _ => '\uFFFD'

/-- A defect of a byte string: how many bytes precede it, and its length, absent
when the bytes end inside a character. -/
structure Defect where
  validUpTo : Nat
  width : Option Nat
  deriving DecidableEq, Repr

/-- The first defect among pieces that start at an offset. -/
def defectFrom (offset : Nat) : List Piece → Option Defect
  | [] => none
  | .char c :: rest => defectFrom (offset + c.utf8Size) rest
  | .invalid n :: _ => some ⟨offset, some n⟩
  | .incomplete _ :: _ => some ⟨offset, none⟩

/-- The first defect of a byte string. -/
def defect? (bytes : Bytes) : Option Defect :=
  defectFrom 0 (pieces bytes)

/-- The text of a byte string, if it is one. -/
def decode? (bytes : Bytes) : Option String :=
  let ps := pieces bytes
  match defectFrom 0 ps with
  | none => some (String.ofList (ps.map Piece.shown))
  | some _ => none

/-- The text of a byte string, every defect shown as one replacement character. -/
def lossy (bytes : Bytes) : String :=
  String.ofList ((pieces bytes).map Piece.shown)

/-- The bytes of a text. -/
def encode (s : String) : Bytes :=
  s.toList.flatMap String.utf8EncodeChar

/-- How a defect is worded. -/
def Defect.message : Defect → String
  | ⟨offset, some n⟩ =>
      "invalid utf-8 sequence of " ++ toString n ++ " bytes from index " ++ toString offset
  | ⟨offset, none⟩ => "incomplete utf-8 byte sequence from index " ++ toString offset

end Defs

end Utf8
end GoTags
