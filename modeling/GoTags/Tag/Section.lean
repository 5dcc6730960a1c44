import GoTags.Fault
import GoTags.Tag.Index

/-!
# Sections of a tags file

**Input.** Any bytes.

**Algorithm.** Section after section: a page break, a header line that ends in a
comma and a length, and as many bytes as the length says. The length is trusted,
so a body may hold anything, page breaks included.

**Results.** The file names and bodies of the sections, or the first fault and
the byte it stands at.
-/

namespace GoTags

section Defs

/-- A section of a tags file. -/
structure Section where
  fileName : String
  body : Bytes
  deriving DecidableEq, Repr

namespace Section

/-- The record lines of a section, without their newlines. -/
def records (s : Section) : List Bytes :=
  match s.body with
  | [] => []
  | body =>
      let trimmed := if body.getLast? = some Bytes.newline then body.dropLast else body
      Bytes.splitOn Bytes.newline trimmed

/-- The name and the length that a header line gives. -/
def readHeader (header : Bytes) : Except SectionFault (String × Nat) :=
  match Utf8.decode? header with
  | none => .error .headerNotText
  | some _ =>
      match Bytes.cutLast Bytes.comma header with
      | none => .error .noLength
      | some (name, length) =>
          match Decimal.read? length with
          | none => .error .lengthNotANumber
          | some n => .ok (Utf8.lossy name, n)

/-- Reads the section in front of data that starts at a position. Gives the
section, the position after it and the data there. -/
def readOne (position : Nat) (data : Bytes) :
    Except (SectionFault × Nat) (Section × Nat × Bytes) :=
  match Bytes.stripFront pageBreak data with
  | none => .error (.noPageBreak, position)
  | some afterBreak =>
      match Bytes.cut Bytes.newline afterBreak with
      | none => .error (.unterminatedHeader, position + 2)
      | some (header, rest) =>
          match readHeader header with
          | .error fault => .error (fault, position + 2)
          | .ok (name, length) =>
              let start := position + 2 + header.length + 1
              if length ≤ rest.length then
                .ok (⟨name, rest.take length⟩, start + length, rest.drop length)
              else .error (.pastEnd, start)

/-- Reads sections until the data is used up. Every section takes at least one
byte, so `fuel` as large as the data suffices. -/
def readMany : Nat → Nat → Bytes → Except (SectionFault × Nat) (List Section)
  | _, _, [] => .ok []
  | 0, position, _ => .error (.noPageBreak, position)
  | fuel + 1, position, data =>
      match readOne position data with
      | .error fault => .error fault
      | .ok (s, position', rest) => (readMany fuel position' rest).map (s :: ·)

/-- The sections of a tags file. -/
def readAll (data : Bytes) : Except Malformed (List Section) :=
  (readMany data.length 0 data).mapError fun (fault, position) => .atByte fault position

end Section

end Defs

end GoTags
