/-!
# Terminals of Go

The kinds of tokens. Words and punctuation marks have one spelling each; the
other kinds are classes of spellings, which `GoTags.Go.Lexical` describes.
-/

namespace GoTags
namespace Go

section Defs

/-- The kinds of tokens of Go. -/
inductive Terminal where
  | newline | nul | endOfFile
  | identifier | intLit | floatLit | imaginaryLit | runeLit
  | rawContent | stringContent | stringEnd | escape
  | semicolon | dot | lparen | rparen | comma | assign | lbracket | rbracket | ellipsis | star
  | tilde | lbrace | rbrace | bar | arrow | define | inc | dec
  | starAssign | slashAssign | percentAssign | shlAssign | shrAssign | ampAssign | ampCaretAssign
  | plusAssign | minusAssign | barAssign | caretAssign
  | colon | plus | minus | bang | caret | amp | slash | percent | shl | shr | ampCaret
  | eq | ne | lt | le | gt | ge | andAnd | orOr | backquote | quote
  | kwPackage | kwImport | blank | kwConst | kwVar | kwFunc | kwType | kwStruct | kwInterface
  | kwMap | kwChan | kwFallthrough | kwBreak | kwContinue | kwGoto | kwReturn | kwGo | kwDefer
  | kwIf | kwElse | kwFor | kwRange | kwSwitch | kwCase | kwDefault | kwSelect
  | kwNew | kwMake | kwNil | kwTrue | kwFalse | kwIota
  deriving DecidableEq, Repr

namespace Terminal

/-- The number of a kind of token. -/
def code (t : Terminal) : Nat :=
  t.ctorIdx

/-- The set that holds one kind of token, as a bit mask. -/
def mask (t : Terminal) : Nat :=
  1 <<< t.code

/-- The spellings of punctuation marks. -/
def marks : List (String × Terminal) :=
  [(";", semicolon), (".", dot), ("(", lparen), (")", rparen), (",", comma), ("=", assign),
   ("[", lbracket), ("]", rbracket), ("...", ellipsis), ("*", star), ("~", tilde),
   ("\x7b", lbrace), ("\x7d", rbrace), ("|", bar), ("<-", arrow), (":=", define), ("++", inc),
   ("--", dec), ("*=", starAssign), ("/=", slashAssign), ("%=", percentAssign),
   ("<<=", shlAssign), (">>=", shrAssign), ("&=", ampAssign), ("&^=", ampCaretAssign),
   ("+=", plusAssign), ("-=", minusAssign), ("|=", barAssign), ("^=", caretAssign),
   (":", colon), ("+", plus), ("-", minus), ("!", bang), ("^", caret), ("&", amp),
   ("/", slash), ("%", percent), ("<<", shl), (">>", shr), ("&^", ampCaret), ("==", eq),
   ("!=", ne), ("<", lt), ("<=", le), (">", gt), (">=", ge), ("&&", andAnd), ("||", orOr),
   ("`", backquote), ("\"", quote)]

/-- The spellings of words with a meaning of their own. -/
def words : List (String × Terminal) :=
  [("package", kwPackage), ("import", kwImport), ("_", blank), ("const", kwConst),
   ("var", kwVar), ("func", kwFunc), ("type", kwType), ("struct", kwStruct),
   ("interface", kwInterface), ("map", kwMap), ("chan", kwChan),
   ("fallthrough", kwFallthrough), ("break", kwBreak), ("continue", kwContinue),
   ("goto", kwGoto), ("return", kwReturn), ("go", kwGo), ("defer", kwDefer), ("if", kwIf),
   ("else", kwElse), ("for", kwFor), ("range", kwRange), ("switch", kwSwitch),
   ("case", kwCase), ("default", kwDefault), ("select", kwSelect), ("new", kwNew),
   ("make", kwMake), ("nil", kwNil), ("true", kwTrue), ("false", kwFalse), ("iota", kwIota)]

/-- The number of kinds of tokens. -/
def count : Nat :=
  kwIota.code + 1

end Terminal

end Defs

end Go
end GoTags
