import GoTags.Toml.Lexical

/-!
# TOML documents

**Input.** A text.

**Algorithm.** The text is read line by line into pairs and headers; these are
then put together, the pairs after a header going to its table.

**Results.** The entries of the whole document, or the number of the line that is
not right.
-/

namespace GoTags
namespace Toml

section Defs

/-- A reader of values. -/
abbrev Reader := List Char → Option (Value × List Char)

/-- The elements of an array up to its closing bracket. Every element takes a
character, so `fuel` as large as the text suffices. -/
def elements? (value : Reader) : Nat → List Char → Option (List Value × List Char)
  | 0, _ => none
  | fuel + 1, cs =>
      match skipGap false cs with
      | ']' :: rest => some ([], rest)
      | front =>
          match value front with
          | none => none
          | some (v, rest) =>
              match skipGap false rest with
              | ',' :: more => (elements? value fuel more).map fun (vs, after) => (v :: vs, after)
              | ']' :: after => some ([v], after)
              | _ => none

/-- The parts of a key before the last, and the last. -/
def splitKey (parts : List String) : List String × String :=
  (parts.dropLast, parts.getLastD "")

/-- A pair in front: a key, an equals sign and a value. -/
def pair? (value : Reader) (cs : List Char) :
    Option ((List String × String × Value) × List Char) :=
  match key? depthLimit cs with
  | some (parts, '=' :: rest) =>
      (value (skipBlanks rest)).map fun (v, after) =>
        let (front, last) := splitKey parts
        ((front, last, v), after)
  | _ => none

/-- The pairs of an inline table up to its closing brace, the first one being
there. -/
def pairs? (value : Reader) : Nat → List Char →
    Option (List (List String × String × Value) × List Char)
  | 0, _ => none
  | fuel + 1, cs =>
      match pair? value cs with
      | none => none
      | some (p, rest) =>
          match skipBlanks rest with
          | ',' :: more => (pairs? value fuel more).map fun (ps, after) => (p :: ps, after)
          | '\x7d' :: after => some ([p], after)
          | _ => none

/-- The inline table in front, after its opening brace. -/
def inlineTable? (value : Reader) (cs : List Char) : Option (Value × List Char) :=
  match skipBlanks cs with
  | '\x7d' :: rest => some (.table .inline [], rest)
  | _ =>
      match pairs? value cs.length cs with
      | none => none
      | some (ps, rest) => (Entries.addPairs [] ps).map fun es => (.table .inline es, rest)

/-- The value in front that holds no other values. -/
def flatValue? : Reader
  | '[' :: _ => none
  | '\x7b' :: _ => none
  | cs =>
      match cs.head? with
      | some '"' => (string? cs).map fun (text, rest) => (.string (String.ofList text), rest)
      | some '\'' => (string? cs).map fun (text, rest) => (.string (String.ofList text), rest)
      | _ => word? cs

/-- The value in front, with so many values inside each other. -/
def value? : Nat → Reader
  | depth + 1, '[' :: rest =>
      (elements? (value? depth) (rest.length + 1) rest).map fun (vs, after) => (.array vs, after)
  | depth + 1, '\x7b' :: rest => inlineTable? (value? depth) rest
  | _, cs => flatValue? cs

/-- A line of a document. -/
inductive Line where
  | pair (front : List String) (key : String) (v : Value)
  | table (parts : List String)
  | element (parts : List String)

/-- The header in front, after its opening bracket. -/
def header? (cs : List Char) : Option (Line × List Char) :=
  match cs with
  | '[' :: rest =>
      match key? depthLimit rest with
      | some (parts, ']' :: ']' :: after) => some (.element parts, after)
      | _ => none
  | _ =>
      match key? depthLimit cs with
      | some (parts, ']' :: after) => some (.table parts, after)
      | _ => none

/-- The line in front that is not empty, with what follows its end. -/
def line? (cs : List Char) : Option (Line × List Char) :=
  match cs with
  | '[' :: rest =>
      match header? rest with
      | some (line, after) => (restOfLine? after).map (line, ·)
      | none => none
  | _ =>
      match pair? (value? depthLimit) cs with
      | some ((front, key, v), after) => (restOfLine? after).map (.pair front key v, ·)
      | none => none

/-- The lines of a document, numbered from the text that is left. -/
def lines : Nat → List Char → Except Nat (List (Line × Nat))
  | 0, _ => .ok []
  | fuel + 1, cs =>
      match skipBlanks cs with
      | [] => .ok []
      | front =>
          match restOfLine? front with
          | some rest => lines fuel rest
          | none =>
              match line? front with
              | none => .error front.length
              | some (line, rest) => (lines fuel rest).map ((line, front.length) :: ·)

/-- The pairs in front of the next header, and what follows them. -/
def pairsInFront : List (Line × Nat) → List (List String × String × Value) × List (Line × Nat)
  | (.pair front key v, _) :: rest =>
      let (pairs, after) := pairsInFront rest
      ((front, key, v) :: pairs, after)
  | other => ([], other)

/-- Entries with the tables of headers and their pairs. Every header is a line, so
`fuel` as large as their number suffices. The fault is where its line starts. -/
def addSections : Nat → List (Line × Nat) → Entries → Except Nat Entries
  | fuel + 1, (.table parts, start) :: rest, entries =>
      let (pairs, after) := pairsInFront rest
      let (front, key) := splitKey parts
      match Entries.changeAt front (Entries.addTable key pairs) entries with
      | some next => addSections fuel after next
      | none => .error start
  | fuel + 1, (.element parts, start) :: rest, entries =>
      let (pairs, after) := pairsInFront rest
      let (front, key) := splitKey parts
      match Entries.changeAt front (Entries.addElement key pairs) entries with
      | some next => addSections fuel after next
      | none => .error start
  | _, _, entries => .ok entries

/-- The entries that lines build up. -/
def assembleLines (ls : List (Line × Nat)) : Except Nat Entries :=
  let (pairs, sections) := pairsInFront ls
  match Entries.addPairs [] pairs with
  | some entries => addSections ls.length sections entries
  | none => .error ((ls.head?.map (·.2)).getD 0)

/-- The mark that a text may start with and that does not count. -/
def withoutMark : List Char → List Char
  | '\uFEFF' :: rest => rest
  | cs => cs

/-- The entries of a document, or the number of the line that is not right. -/
def read (text : String) : Except Nat Entries :=
  let cs := withoutMark text.toList
  let result :=
    match lines (cs.length + 1) cs with
    | .ok ls => assembleLines ls
    | .error left => .error left
  result.mapError fun left => (cs.take (cs.length - left)).count '\n' + 1

end Defs

end Toml
end GoTags
