import GoTags.Go.Lexical
import GoTags.Go.Syntax
import GoTags.Grammar.Parse

/-!
# Reading tokens of Go

**Input.** A place in a text and a state of the parser.

**Algorithm.** Only tokens that the state can use are looked for, and the
longest one wins. A newline is a token where one can end something, and a blank
elsewhere. Inside a string its contents come first. Comments and blanks before a
token are passed over.

At the end of the text a missing terminator is made up: a NUL after an
expression, a newline after anything else.

**Results.** The token and the place after it, or the offset where no usable
token stands.
-/

namespace GoTags
namespace Go

open Grammar

section Defs

/-- A place in a text: its offset in bytes and the characters from there on. -/
structure Cursor where
  offset : Nat
  rest : List Char

/-- The place after a match. -/
def Cursor.after (c : Cursor) (m : Match) : Cursor :=
  ⟨c.offset + m.width, m.rest⟩

/-- The classes of tokens that may stand after blanks, with their spellings. -/
def classes : List (Terminal × Matcher) :=
  [(.intLit, Matcher.longest intForms), (.floatLit, Matcher.longest floatForms),
   (.imaginaryLit, Matcher.longest imaginaryForms), (.runeLit, Matcher.longest runeForms)] ++
  Terminal.marks.map fun (s, t) => (t, Matcher.spelling s.toList)

/-- The parts of strings that have to follow the part before without a blank. -/
def stringParts : List (Terminal × Matcher) :=
  [(.stringContent, stringContent), (.stringEnd, Matcher.spelling ['"']),
   (.escape, Matcher.longest escapeForms)]

/-- A candidate token: its kind and its match. -/
abbrev Candidate := Option (Terminal × Match)

/-- The longer of two candidates, the first of two of one length. -/
def Candidate.longer : Candidate → Candidate → Candidate
  | none, b => b
  | a, none => a
  | some (s, a), some (t, b) => if a.width < b.width then some (t, b) else some (s, a)

/-- The longest usable token among some classes. -/
def usable (valid : TerminalSet) (kinds : List (Terminal × Matcher)) (cs : List Char) :
    Candidate :=
  kinds.foldl
    (fun best (t, m) =>
      if valid.has t.code then Candidate.longer best ((m cs).map (t, ·)) else best)
    none

/-- The name or word at the front: a word with a meaning of its own where the
state can use it, a name otherwise. -/
def usableWord (valid reserved : TerminalSet) (cs : List Char) : Candidate :=
  match word cs with
  | none => none
  | some m =>
      let spelt := String.ofList (cs.takeWhile Identifier.isContinue)
      let meaning := (Terminal.words.find? fun (s, _) => s == spelt).map Prod.snd
      match meaning.filter fun t => TerminalSet.has (valid ||| reserved) t.code with
      | some t => some (t, m)
      | none => if valid.has Terminal.identifier.code then some (.identifier, m) else none

/-- The token at the end of the text. -/
def atEnd (valid : TerminalSet) : Option Terminal :=
  if valid.has Terminal.endOfFile.code then some .endOfFile
  else if valid.has Terminal.nul.code then
    if valid.has Terminal.orOr.code then some .nul else some .newline
  else none

/-- The usable token at the front of a text that does not start with a blank, or
a comment to pass over. -/
inductive Front where
  | token (t : Terminal) (found : Match)
  | skip (found : Match) (blank : Bool)
  | nothing

/-- What stands at the front. `adjacent` tells that no blank precedes. -/
def front (valid reserved : TerminalSet) (adjacent : Bool) (cs : List Char) : Front :=
  let inString := if adjacent then usable valid stringParts cs else none
  match inString with
  | some (t, m) => .token t m
  | none =>
      match cs with
      | [] =>
          match atEnd valid with
          | some t => .token t ⟨0, []⟩
          | none => .nothing
      | '\x00' :: rest => if valid.has Terminal.nul.code then .token .nul ⟨1, rest⟩ else .nothing
      | c :: rest =>
          if c == '\n' && valid.has Terminal.newline.code then .token .newline ⟨1, rest⟩
          else if isBlank c then .skip ⟨1, rest⟩ true
          else
            match comment cs with
            | some m => .skip m false
            | none =>
                match Candidate.longer (usable valid classes cs)
                    (usableWord valid reserved cs) with
                | some (t, m) => .token t m
                | none => .nothing

/-- Passes over blanks and comments and reads a token. `fuel` bounds what is
passed over. -/
def nextToken (valid reserved : TerminalSet) :
    Nat → Bool → Cursor → Except Nat (Token Cursor)
  | 0, _, c => .error c.offset
  | fuel + 1, adjacent, c =>
      match front valid reserved adjacent c.rest with
      | .token t m =>
          let after := c.after m
          .ok ⟨t.code, c.offset, after.offset, after⟩
      | .skip m blank => nextToken valid reserved fuel (!blank) (c.after m)
      | .nothing => .error c.offset

/-- The words that close a list of statements. They are kept from being names
wherever such a list could end, whatever it belongs to. -/
def closingWords : TerminalSet :=
  Terminal.kwCase.mask ||| Terminal.kwDefault.mask

/-- The words kept from being names in a state beyond those it can use: a
production that is done and may be followed by a newline or a closing brace
keeps the closing words that could follow it somewhere. -/
def reservedIn (g : Tables) (s : State) : TerminalSet :=
  s.foldl
    (fun set i =>
      let ends := Terminal.newline.mask ||| Terminal.rbrace.mask
      if i.rest.isEmpty && (i.follow &&& ends) != 0 then
        set ||| (closingWords &&& g.follow.getD i.production.head 0)
      else set)
    0

/-- How tokens of Go are read in a text of some length. The contents of a raw
string start right after its quote, whatever they are. -/
def scanner (g : Tables) (length : Nat) : Scanner Cursor where
  next s c :=
    let valid := g.valid s
    if valid.has Terminal.rawContent.code then
      let after := c.after (Matcher.runFrom isRawContent 0 c.rest)
      .ok ⟨Terminal.rawContent.code, c.offset, after.offset, after⟩
    else nextToken valid (reservedIn g s) (length + 1) true c
  offset := Cursor.offset

/-- The tables of the grammar of Go. -/
def tables : Tables :=
  Tables.of spec

end Defs

end Go
end GoTags
