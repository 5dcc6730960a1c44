import GoTags.Text.Pattern

/-!
# Globs

**Input.** A glob as text: `?` is a byte, `*` any number of them, `[a-z]` a byte
of a set, `{a,b}` a choice, a backslash takes the next character as it is, and
`**` as a whole part of a path stands for any number of parts. Only `**` and a
set pass a slash.

**Results.** The pattern of the paths that fit, or what is wrong with the glob.
-/

namespace GoTags

/-- What is wrong with a glob. -/
inductive GlobFault where
  | invalidRange (low high : Char)
  | unopenedChoice
  | unclosedChoice
  | danglingEscape
  deriving DecidableEq, Repr

/-- The words for a glob that makes no sense. -/
def GlobFault.message : GlobFault → String
  | .invalidRange low high =>
      "invalid range; '" ++ String.singleton low ++ "' > '" ++ String.singleton high ++ "'"
  | .unopenedChoice =>
      "unopened alternate group; missing '\x7b' (maybe escape '\x7d' with '[\x7d]'?)"
  | .unclosedChoice =>
      "unclosed alternate group; missing '\x7d' (maybe escape '\x7b' with '[\x7b]'?)"
  | .danglingEscape => "dangling '\\'"

namespace Glob

section Defs

/-- A piece of a glob: any parts of a path in front, between slashes or after a
slash, or something plain. -/
inductive Piece where
  | front
  | middle
  | back
  | plain (pattern : Pattern)
  deriving DecidableEq, Repr

/-- Any byte but a slash. -/
def notSlash : Pattern :=
  .byte (.but Bytes.slash)

/-- A slash. -/
def slash : Pattern :=
  .byte (.only Bytes.slash)

/-- Any number of bytes within a part of a path. -/
def withinPart : Piece :=
  .plain (.many notSlash)

/-- The pattern of a piece. -/
def Piece.pattern : Piece → Pattern
  | .front => .orElse (.orElse slash .empty) (.followedBy .anything slash)
  | .middle => .orElse slash (.followedBy slash (.followedBy .anything slash))
  | .back => .followedBy slash .anything
  | .plain p => p

/-- The bytes of a character. -/
def charBytes (c : Char) : Bytes :=
  String.utf8EncodeChar c

/-- The piece of a character that stands for itself. -/
def literal (c : Char) : Piece :=
  .plain (.exactly (charBytes c))

/-- The bounds that a range of characters stands for. Sets are sets of bytes: of
a character of several bytes each counts, and a range reaches from the last byte
of one to the first byte of the other. -/
def rangeBounds (low high : Char) : List (UInt8 × UInt8) :=
  let single := fun b => (b, b)
  if low = high then (charBytes low).map single
  else
    match (charBytes low).getLast?, charBytes high with
    | some last, first :: others =>
        (charBytes low).dropLast.map single ++ (last, first) :: others.map single
    | _, _ => []

/-- A set under way: its ranges, the latest first, and whether a hyphen waits for
the end of a range. -/
structure SetState where
  ranges : List (Char × Char) := []
  rangeOpen : Bool := false

/-- The outcome of reading a set. -/
inductive SetOutcome where
  | closed (ranges : List (Char × Char)) (rest : List Char)
  | unclosed
  | fault (cause : GlobFault)

/-- A set after a character. -/
def SetState.add (s : SetState) (c : Char) : Except GlobFault SetState :=
  match s.rangeOpen, s.ranges with
  | true, (low, _) :: others =>
      if c < low then .error (.invalidRange low c) else .ok ⟨(low, c) :: others, false⟩
  | _, _ => .ok ⟨(c, c) :: s.ranges, false⟩

/-- Reads a set up to its closing bracket. In front, a bracket and a hyphen stand
for themselves. -/
def readSet (first : Bool) (s : SetState) : List Char → SetOutcome
  | [] => .unclosed
  | c :: rest =>
      if c = ']' ∧ ¬ first then
        .closed ((if s.rangeOpen then ('-', '-') :: s.ranges else s.ranges).reverse) rest
      else if c = '-' ∧ ¬ first ∧ ¬ s.rangeOpen then readSet false { s with rangeOpen := true } rest
      else
        match s.add c with
        | .ok next => readSet false next rest
        | .error cause => .fault cause

/-- The piece of a set. -/
def setPiece (negated : Bool) (ranges : List (Char × Char)) : Piece :=
  .plain (.byte ⟨negated, ranges.flatMap fun (low, high) => rangeBounds low high⟩)

/-- A choice under way: the branches that are complete, the latest first. -/
abbrev Branches := List (List Piece)

/-- A glob under way. Pieces are kept the latest first. -/
structure State where
  /-- The pieces of the branch that is being read. -/
  pieces : List Piece := []
  /-- For each choice that is open: the pieces before it and its branches. -/
  outer : List (List Piece × Branches) := []
  /-- The character before. -/
  before : Option Char := none
  /-- Whether a set was found to have no end. -/
  setUnclosed : Bool := false

/-- The pattern of pieces, given the latest first. -/
def branchPattern (pieces : List Piece) : Pattern :=
  .inOrder (pieces.reverse.map Piece.pattern)

/-- The piece of a choice. A branch without pieces does not count. -/
def choicePiece (branches : Branches) : Piece :=
  let patterns := (branches.reverse.map branchPattern).filter (· ≠ .empty)
  if patterns = [] then .plain .empty else .plain (.anyOf patterns)

/-- The glob after a piece. -/
def State.push (s : State) (before : Char) (p : Piece) : State :=
  { s with pieces := p :: s.pieces, before := some before }

/-- The glob after two stars that are not a whole part of a path. -/
def State.twoStars (s : State) : State :=
  { s with pieces := withinPart :: withinPart :: s.pieces, before := some '*' }

/-- The glob after two stars between slashes or at the end, which take the slash
before them along. -/
def State.spread (s : State) (before : Char) (p : Piece) : State :=
  match s.pieces with
  | .front :: _ => { s with before := some before }
  | .back :: _ => { s with before := some before }
  | _ :: others => { s with pieces := p :: others, before := some before }
  | [] => s

/-- The glob after two stars, given what follows them, and the rest. -/
def State.readStars (s : State) (rest : List Char) : State × List Char :=
  let choosing := !s.outer.isEmpty
  if s.pieces.isEmpty then
    match rest with
    | [] => (s.push '*' .front, [])
    | '/' :: tail => (s.push '/' .front, tail)
    | _ => (s.twoStars, rest)
  else if s.before = some '/' ∨ (choosing ∧ (s.before = some ',' ∨ s.before = some '\x7b')) then
    match rest with
    | [] => (s.spread '*' .back, [])
    | '/' :: tail => (s.spread '/' .middle, tail)
    | c :: _ =>
        if choosing ∧ (c = ',' ∨ c = '\x7d') then (s.spread '*' .back, rest)
        else (s.twoStars, rest)
  else (s.twoStars, rest)

/-- The glob after a set, given what follows the opening bracket, and the rest. A
bracket that is never closed stands for itself. -/
def State.readSet (s : State) (rest : List Char) : Except GlobFault (State × List Char) :=
  let (negated, body) :=
    match rest with
    | '!' :: tail => (true, tail)
    | '^' :: tail => (true, tail)
    | _ => (false, rest)
  match Glob.readSet true {} body with
  | .closed ranges tail => .ok (s.push ']' (setPiece negated ranges), tail)
  | .unclosed => .ok ({ s.push '[' (literal '[') with setUnclosed := true }, rest)
  | .fault cause => .error cause

/-- The glob after a character and the rest. -/
def State.step (s : State) (c : Char) (rest : List Char) :
    Except GlobFault (State × List Char) :=
  match c with
  | '?' => .ok (s.push c (.plain notSlash), rest)
  | '*' =>
      match rest with
      | '*' :: tail => .ok (s.readStars tail)
      | _ => .ok (s.push c withinPart, rest)
  | '[' => if s.setUnclosed then .ok (s.push c (literal c), rest) else s.readSet rest
  | '\x7b' =>
      .ok ({ s with pieces := [], outer := (s.pieces, []) :: s.outer, before := some c }, rest)
  | '\x7d' =>
      match s.outer with
      | [] => .error .unopenedChoice
      | (pieces, branches) :: outer =>
          .ok ({ s with pieces := choicePiece (s.pieces :: branches) :: pieces, outer,
                        before := some c }, rest)
  | ',' =>
      match s.outer with
      | [] => .ok (s.push c (literal c), rest)
      | (pieces, branches) :: outer =>
          .ok ({ s with pieces := [], outer := (pieces, s.pieces :: branches) :: outer,
                        before := some c }, rest)
  | '\\' =>
      match rest with
      | [] => .error .danglingEscape
      | e :: tail => .ok (s.push e (literal e), tail)
  | _ => .ok (s.push c (literal c), rest)

/-- Reads a glob to its end. Every step takes a character, so `fuel` as large as
the text suffices. -/
def read : Nat → State → List Char → Except GlobFault State
  | _, s, [] => .ok s
  | 0, s, _ => .ok s
  | fuel + 1, s, c :: rest =>
      match s.step c rest with
      | .ok (next, tail) => read fuel next tail
      | .error cause => .error cause

/-- The pattern of the paths that fit a glob. -/
def compile (text : List Char) : Except GlobFault Pattern :=
  match read text.length {} text with
  | .error cause => .error cause
  | .ok s =>
      if !s.outer.isEmpty then .error .unclosedChoice
      else if s.pieces = [.front] then .ok .anything
      else .ok (branchPattern s.pieces)

end Defs

end Glob
end GoTags
