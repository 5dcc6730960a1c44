import GoTags.Go.Terminal
import GoTags.Text.Identifier

/-!
# Spellings of Go tokens

**Input.** The characters from some point of a text on.

**Algorithm.** Every class of tokens has a matcher, which finds the longest
spelling of the class at the front. Matchers are put together from a few small
ones. A NUL belongs to no token but itself.

**Results.** The matchers of the classes, of comments and of blanks.
-/

namespace GoTags
namespace Go

section Defs

/-- What was recognised at the front of a text: its bytes, and what is left. -/
structure Match where
  width : Nat
  rest : List Char

/-- Recognises something at the front of a text. -/
abbrev Matcher := List Char → Option Match

namespace Matcher

/-- One character of a class. -/
def one (p : Char → Bool) : Matcher
  | c :: rest => if p c then some ⟨c.utf8Size, rest⟩ else none
  | [] => none

/-- A given spelling. -/
def spelling : List Char → Matcher
  | [], rest => some ⟨0, rest⟩
  | _ :: _, [] => none
  | a :: as, b :: bs =>
      if a = b then (spelling as bs).map fun m => ⟨b.utf8Size + m.width, m.rest⟩ else none

/-- One matcher after another. -/
def andThen (m n : Matcher) : Matcher :=
  fun cs =>
    match m cs with
    | none => none
    | some first => (n first.rest).map fun second => ⟨first.width + second.width, second.rest⟩

/-- Several matchers one after another. -/
def all : List Matcher → Matcher
  | [] => fun cs => some ⟨0, cs⟩
  | m :: ms => andThen m (all ms)

/-- A matcher, or nothing where it does not apply. -/
def maybe (m : Matcher) : Matcher :=
  fun cs => some ((m cs).getD ⟨0, cs⟩)

/-- The longer of two matches, the first if they are equally long. -/
def longer : Option Match → Option Match → Option Match
  | none, b => b
  | a, none => a
  | some a, some b => if a.width < b.width then some b else some a

/-- The longest match of several matchers. -/
def longest (ms : List Matcher) : Matcher :=
  fun cs => ms.foldl (fun best m => longer best (m cs)) none

/-- Any number of characters of a class, after some bytes. -/
def runFrom (p : Char → Bool) : Nat → List Char → Match
  | n, [] => ⟨n, []⟩
  | n, c :: rest => if p c then runFrom p (n + c.utf8Size) rest else ⟨n, c :: rest⟩

/-- Any number of characters of a class. -/
def run (p : Char → Bool) : Matcher :=
  fun cs => some (runFrom p 0 cs)

/-- Exactly so many characters of a class. -/
def times (n : Nat) (p : Char → Bool) : Matcher :=
  all (List.replicate n (one p))

/-- What follows a first digit, after some bytes: digits, each of them perhaps
after an underscore. -/
def moreDigits (p : Char → Bool) : Nat → List Char → Match
  | n, '_' :: c :: rest => if p c then moreDigits p (n + 2) rest else ⟨n, '_' :: c :: rest⟩
  | n, c :: rest => if p c then moreDigits p (n + 1) rest else ⟨n, c :: rest⟩
  | n, [] => ⟨n, []⟩

/-- ASCII digits, with single underscores allowed between them. -/
def digits (p : Char → Bool) : Matcher :=
  andThen (one p) fun cs => some (moreDigits p 0 cs)

end Matcher

open Matcher

/-- Any of the given characters. -/
def among (s : String) (c : Char) : Bool :=
  s.toList.contains c

/-- Hexadecimal digits. -/
def isHexDigit (c : Char) : Bool :=
  c.isDigit || among "abcdefABCDEF" c

/-- Octal digits. -/
def isOctalDigit (c : Char) : Bool :=
  among "01234567" c

/-- Binary digits. -/
def isBinaryDigit (c : Char) : Bool :=
  among "01" c

/-- An underscore that may stand after the mark of a base. -/
def gap : Matcher :=
  maybe (one (· == '_'))

/-- A zero and a letter that together announce a base. -/
def base (letters : String) : Matcher :=
  andThen (one (· == '0')) (one (among letters))

/-- The spellings of integers. -/
def intForms : List Matcher :=
  [all [base "bB", gap, digits isBinaryDigit],
   one (· == '0'),
   andThen (one (among "123456789")) (maybe (andThen gap (digits Char.isDigit))),
   all [one (· == '0'), maybe (one (among "oO")), gap, digits isOctalDigit],
   all [base "xX", gap, digits isHexDigit]]

/-- An exponent after one of two letters. -/
def exponent (letters : String) : Matcher :=
  all [one (among letters), maybe (one (among "+-")), digits Char.isDigit]

/-- The spellings of floating-point numbers. -/
def floatForms : List Matcher :=
  [all [digits Char.isDigit, one (· == '.'), maybe (digits Char.isDigit), maybe (exponent "eE")],
   all [digits Char.isDigit, exponent "eE"],
   all [one (· == '.'), digits Char.isDigit, maybe (exponent "eE")],
   all [base "xX", gap, digits isHexDigit, one (· == '.'), maybe (digits isHexDigit),
     exponent "pP"],
   all [base "xX", gap, digits isHexDigit, exponent "pP"],
   all [base "xX", one (· == '.'), digits isHexDigit, exponent "pP"]]

/-- The spellings of imaginary numbers. -/
def imaginaryForms : List Matcher :=
  (digits Char.isDigit :: intForms ++ floatForms).map fun m => andThen m (one (· == 'i'))

/-- The spellings of rune literals: one character, or an escape, between quotes. -/
def runeForms : List Matcher :=
  let quoted (m : Matcher) : Matcher := all [one (· == '\''), m, one (· == '\'')]
  let escaped (m : Matcher) : Matcher := quoted (andThen (one (· == '\\')) m)
  [quoted (one fun c => !among "'\\\x00" c),
   escaped (andThen (one (· == 'x')) (times 2 isHexDigit)),
   escaped (times 3 isOctalDigit),
   escaped (andThen (one (· == 'u')) (times 4 isHexDigit)),
   escaped (andThen (one (· == 'U')) (times 8 isHexDigit)),
   escaped (one (among "abfnrtv\\'\""))]

/-- The spellings of escapes in interpreted strings. -/
def escapeForms : List Matcher :=
  [one fun c => !among "xuU\x00" c,
   andThen (times 2 Char.isDigit) (maybe (one Char.isDigit)),
   all [one (· == 'x'), times 2 isHexDigit, run isHexDigit],
   andThen (one (· == 'u')) (times 4 isHexDigit),
   andThen (one (· == 'U')) (times 8 isHexDigit)].map fun m => andThen (one (· == '\\')) m

/-- A name or a word. -/
def word : Matcher :=
  andThen (one Identifier.isStart) (run Identifier.isContinue)

/-- What lies between the quotes of a raw string. -/
def isRawContent (c : Char) : Bool :=
  !among "`\x00" c

/-- A stretch of an interpreted string without escapes. -/
def stringContent : Matcher :=
  let inside (c : Char) : Bool := !among "\"\n\\\x00" c
  andThen (one inside) (run inside)

/-- The rest of a block comment, some bytes after its start. -/
def blockComment : Nat → List Char → Option Match
  | n, '*' :: '/' :: rest => some ⟨n + 2, rest⟩
  | _, '\x00' :: _ => none
  | n, c :: rest => blockComment (n + c.utf8Size) rest
  | _, [] => none

/-- A comment to the end of the line, or a block comment. -/
def comment : Matcher
  | '/' :: '/' :: rest => some (runFrom (fun c => !among "\n\x00" c) 2 rest)
  | '/' :: '*' :: rest => blockComment 2 rest
  | _ => none

/-- Blanks. -/
def isBlank (c : Char) : Bool :=
  among " \t\n\x0b\x0c\r" c

end Defs

end Go
end GoTags
