import GoTags.Fault
import GoTags.Go.Scan
import GoTags.Tag.Declaration
import GoTags.Text.Lines

/-!
# Items of a Go file

**Input.** The bytes of a Go file.

**Algorithm.** The text is parsed, and the tree is cut where its items begin:
declarations, statements, and terminators that can be seen. Comments that stand
between items are items too; they are found again in the gaps.

**Results.** The top-level items in the order of the file. Of a declaration only
the declared names are kept; a group gives one item for each specification. In a
constant specification the commas between the names count as names.

A text that the grammar does not take in has a fault, placed at the token with which no way
to read on is left. A parser that goes on after an error by guessing tokens may see its first
error elsewhere, and may call it a missing token of some kind. How such guesses are made is
not part of the grammar, so neither that place nor that wording is given here.
-/

namespace GoTags
namespace Go

open Grammar

section Defs

/-- The offset of the first token of a tree. -/
def firstOffset : Tree → Option Nat
  | .leaf _ start _ => some start
  | .node _ children => firstOffsetIn children
where
  /-- The offset of the first token of some trees. -/
  firstOffsetIn : List Tree → Option Nat
    | [] => none
    | t :: rest => (firstOffset t).or (firstOffsetIn rest)

/-- The end of the last token of a tree. -/
def lastOffset : Tree → Option Nat
  | .leaf _ _ stop => some stop
  | .node _ children => lastOffsetIn children
where
  /-- The end of the last token of some trees. -/
  lastOffsetIn : List Tree → Option Nat
    | [] => none
    | t :: rest => (lastOffsetIn rest).or (lastOffset t)

/-- Whether a symbol is a given category. -/
def isCat (s : Symbol) (c : Category) : Bool :=
  s == c.code

/-- Whether a symbol is a repetition. -/
def isRepetition (s : Symbol) : Bool :=
  Terminal.count + Category.all.length ≤ s

/-- Whether the parts of a tree take its place among the items of a file. -/
def isOpen (s : Symbol) : Bool :=
  isRepetition s || Category.all.any fun c => isCat s c && c.isTransparent

/-- The items that a tree of a file consists of. -/
def itemTrees : Tree → List Tree
  | .leaf s start stop => [.leaf s start stop]
  | .node s children => if isOpen s then itemTreesIn children else [.node s children]
where
  /-- The items that some trees consist of. -/
  itemTreesIn : List Tree → List Tree
    | [] => []
    | t :: rest => itemTrees t ++ itemTreesIn rest

/-- The tokens of a tree: symbol, start and end. -/
def tokens : Tree → List (Symbol × Nat × Nat)
  | .leaf s start stop => [(s, start, stop)]
  | .node _ children => tokensIn children
where
  /-- The tokens of some trees. -/
  tokensIn : List Tree → List (Symbol × Nat × Nat)
    | [] => []
    | t :: rest => tokens t ++ tokensIn rest

/-- The name that stands between two offsets of a content. -/
def identAt (content : Bytes) (start stop : Nat) : Ident :=
  ⟨Utf8.lossy ((content.drop start).take (stop - start)), Lines.numberAt content start, start⟩

/-- The first identifier among the parts of a declaration. -/
def declaredName (content : Bytes) (children : List Tree) : Option Ident :=
  children.findSome? fun
    | .leaf s start stop =>
        if s == Terminal.identifier.code then some (identAt content start stop) else none
    | .node _ _ => none

/-- The names at the front of a specification. With `separators` the commas
between them are taken along. -/
def specNames (content : Bytes) (separators : Bool) (children : List Tree) : List Ident :=
  children.flatMap fun
    | .leaf s start stop =>
        if s == Terminal.identifier.code then [identAt content start stop] else []
    | .node s parts =>
        if isRepetition s then
          (tokens (.node s parts)).filterMap fun (t, start, stop) =>
            if separators || t == Terminal.identifier.code then some (identAt content start stop)
            else none
        else []

/-- The trees of some categories that are reached from a tree through repetitions
and lists. -/
def specs (wanted through : Category → Bool) : Tree → List Tree
  | .leaf _ _ _ => []
  | .node s children =>
      if Category.all.any fun c => isCat s c && wanted c then [.node s children]
      else if isRepetition s || Category.all.any fun c => isCat s c && through c then
        specsIn children
      else []
where
  /-- The trees of some categories that are reached from some trees. -/
  specsIn : List Tree → List Tree
    | [] => []
    | t :: rest => specs wanted through t ++ specsIn rest

/-- The parts of a tree. -/
def children : Tree → List Tree
  | .leaf _ _ _ => []
  | .node _ ts => ts

/-- The top-level items that a tree gives. -/
def topLevel (content : Bytes) : Tree → List TopLevel
  | .leaf s start stop =>
      if s == Terminal.newline.code then []
      else if s == Terminal.nul.code then [.other ""]
      else if s == Terminal.endOfFile.code then []
      else [.other (Utf8.lossy ((content.drop start).take (stop - start)))]
  | .node s parts =>
      if isCat s .functionDeclaration || isCat s .methodDeclaration then
        ((declaredName content parts).map TopLevel.function).toList
      else if isCat s .typeDeclaration then
        let isSpec := fun c => c == .typeSpec || c == .typeAlias
        (parts.flatMap (specs isSpec fun _ => false)).filterMap
          fun t => (declaredName content (children t)).map TopLevel.type
      else if isCat s .constDeclaration then
        (parts.flatMap (specs (· == .constSpec) fun _ => false)).map
          fun t => .value (specNames content true (children t))
      else if isCat s .varDeclaration then
        (parts.flatMap (specs (· == .varSpec) (· == .varSpecList))).map
          fun t => .value (specNames content false (children t))
      else
        match Category.all.find? (isCat s) with
        | some c => [.other c.itemName]
        | none => []

/-- The number of comments in a gap between tokens. -/
def commentsIn : Nat → List Char → Nat
  | 0, _ => 0
  | _, [] => 0
  | fuel + 1, c :: rest =>
      match comment (c :: rest) with
      | some m => commentsIn fuel m.rest + 1
      | none => commentsIn fuel rest

/-- The items for the comments between two offsets. -/
def commentItems (content : Bytes) (start stop : Nat) : List TopLevel :=
  let gap := (Utf8.lossy ((content.drop start).take (stop - start))).toList
  List.replicate (commentsIn gap.length gap) (.other "comment")

/-- The items of a file, from an offset on. -/
def itemsFrom (content : Bytes) : Nat → List Tree → List TopLevel
  | start, [] => commentItems content start content.length
  | start, t :: rest =>
      let first := (firstOffset t).getD start
      let last := (lastOffset t).getD start
      commentItems content start first ++ topLevel content t ++ itemsFrom content last rest

/-- The mark that may stand at the very start of a text. -/
def byteOrderMark : Char := '\uFEFF'

/-- The place where reading starts: after a byte order mark, if there is one. -/
def startOf (text : List Char) : Cursor :=
  match text with
  | c :: rest => if c == byteOrderMark then ⟨c.utf8Size, rest⟩ else ⟨0, text⟩
  | [] => ⟨0, []⟩

/-- The top-level items of a Go file. -/
def items (content : Bytes) : Except ParseFault (List TopLevel) :=
  match Utf8.defect? content with
  | some d =>
      let (line, column) := Lines.positionOf content d.validUpTo
      .error (.invalidUtf8 line column)
  | none =>
      let start := startOf (Utf8.lossy content).toList
      match parse tables (scanner tables content.length) content.length start with
      | .error offset =>
          let (line, column) := Lines.positionOf content offset
          .error (.syntaxError line column)
      | .ok tree => .ok (itemsFrom content start.offset (itemTrees tree))

end Defs

end Go
end GoTags
