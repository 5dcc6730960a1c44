import GoTags.Text.Bytes

/-!
# Lines and positions

A line ends at a newline byte; the last one may lack it. This module counts
lines in two ways, by splitting the whole content and by walking to one line,
and turns byte offsets into pairs of line and column.
-/

namespace GoTags
namespace Lines

section Defs

/-- The lines of a content, without their newlines. Nothing follows the last
newline unless bytes do. -/
def all (content : Bytes) : List Bytes :=
  let parts := Bytes.splitOn Bytes.newline content
  match parts.getLast? with
  | some [] => parts.dropLast
  | _ => parts

/-- The front line of a content and what follows its newline; nothing for the
empty content. -/
def next? : Bytes → Option (Bytes × Bytes)
  | [] => none
  | b :: rest =>
      if b = Bytes.newline then some ([], rest)
      else
        match next? rest with
        | none => some ([b], [])
        | some (line, after) => some (b :: line, after)

/-- The outcome of walking to a line. -/
inductive Found where
  | line (text : Bytes)
  | onlyHas (count : Nat)
  deriving DecidableEq, Repr

/-- Walks to a line, `skip` lines ahead, after `passed` lines: reads line after
line and stops at the end of the content. -/
def walk : Nat → Nat → Bytes → Found
  | skip, passed, content =>
      match next? content with
      | none => .onlyHas passed
      | some (line, after) =>
          match skip with
          | 0 => .line line
          | skip + 1 => walk skip (passed + 1) after

/-- The 1-based line number of an offset: one more than the newlines before it. -/
def numberAt (content : Bytes) (offset : Nat) : Nat :=
  (content.take offset).count Bytes.newline + 1

/-- The length of the longest end of a byte string that holds no newline. -/
def tailWidth (bytes : Bytes) : Nat :=
  (bytes.reverse.takeWhile (· ≠ Bytes.newline)).length

/-- The 1-based line and byte column of an offset. -/
def positionOf (content : Bytes) (offset : Nat) : Nat × Nat :=
  (numberAt content offset, tailWidth (content.take offset) + 1)

end Defs

end Lines
end GoTags
