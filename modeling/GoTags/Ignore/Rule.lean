import GoTags.Ignore.Glob
import GoTags.Path
import GoTags.Text.Blank
import GoTags.Text.Lines

/-!
# Ignore rules

**Input.** The bytes of a rule file: one rule a line. A line that starts with `#`
and a blank line hold none. `!` in front makes a rule that lets through, a slash
at the end one for directories alone. A rule with a slash in front or inside is
for paths from the directory of its file on, any other for names at any depth.

**Results.** The rules of the file in order, together with the lines that could
not be read as rules.
-/

namespace GoTags
namespace Ignore

section Defs

/-- What a rule says about a path that fits it. -/
inductive Verdict where
  | ignore
  | letThrough
  deriving DecidableEq, Repr

/-- A rule: its verdict, whether it is for directories alone, and the pattern of
the paths it is for. -/
structure Rule where
  verdict : Verdict
  dirOnly : Bool
  pattern : Pattern
  deriving DecidableEq, Repr

/-- What a line of a rule file cannot be read for. -/
inductive LineIssue where
  | glob (text : String) (cause : GlobFault)
  | notText
  deriving DecidableEq, Repr

/-- The words for a line that could not be read. -/
def LineIssue.message : LineIssue → String
  | .glob text cause => "error parsing glob '" ++ text ++ "': " ++ cause.message
  | .notText => "stream did not contain valid UTF-8"

/-- Whether a text ends in an escaped blank, which then belongs to it. -/
def endsInEscapedBlank (line : List Char) : Bool :=
  ['\\', ' '].isSuffixOf line

/-- A line without the blanks at its end, unless the last is escaped. -/
def trimLine (line : List Char) : List Char :=
  if endsInEscapedBlank line then line else Blank.trimEnd line

/-- A rule in parts: its verdict, whether a slash in front ties it to its
directory, and what is left of the line. -/
def splitFront (line : List Char) : Verdict × Bool × List Char :=
  match line with
  | '\\' :: '!' :: rest => (.ignore, false, '!' :: rest)
  | '\\' :: '#' :: rest => (.ignore, false, '#' :: rest)
  | '!' :: '/' :: rest => (.letThrough, true, rest)
  | '!' :: rest => (.letThrough, false, rest)
  | '/' :: rest => (.ignore, true, rest)
  | _ => (.ignore, false, line)

/-- Whether a slash at the end asks for directories, and the text without it. A
backslash before that slash goes too. -/
def splitEnd (line : List Char) : Bool × List Char :=
  match line.reverse with
  | '/' :: '\\' :: rest => (true, rest.reverse)
  | '/' :: rest => (true, rest.reverse)
  | _ => (false, line)

/-- Whether a glob already starts with any parts of a path. -/
def startsAnywhere (glob : List Char) : Bool :=
  ['*', '*', '/'].isPrefixOf glob || glob = ['*', '*']

/-- The glob of a rule: names at any depth if nothing ties it to a directory, and
only what is inside if it ends in any parts of a path. -/
def ruleGlob (tied : Bool) (body : List Char) : List Char :=
  let whole :=
    if !tied && !body.contains '/' && !startsAnywhere body then '*' :: '*' :: '/' :: body
    else body
  if ['/', '*', '*'].isSuffixOf whole then whole ++ ['/', '*'] else whole

/-- The rule of a line, if it holds one. -/
def readLine (line : List Char) : Except LineIssue (Option Rule) :=
  if line.head? = some '#' then .ok none
  else
    let trimmed := trimLine line
    if trimmed = [] then .ok none
    else
      let (verdict, tied, rest) := splitFront trimmed
      let (dirOnly, body) := splitEnd rest
      match Glob.compile (ruleGlob tied body) with
      | .ok pattern => .ok (some ⟨verdict, dirOnly, pattern⟩)
      | .error cause => .error (.glob (String.ofList trimmed) cause)

/-- The mark that a text may start with and that does not count. -/
def byteOrderMark : Char := '\uFEFF'

/-- A line of a rule file without the carriage return at its end. -/
def withoutReturn (line : Bytes) : Bytes :=
  if line.getLast? = some 0x0d then line.dropLast else line

/-- Reads lines from a number on: the rules, and by number the lines that could
not be read. A line that is not text ends the reading. -/
def readLines (number : Nat) : List Bytes → List Rule × List (Nat × LineIssue)
  | [] => ([], [])
  | bytes :: rest =>
      match Utf8.decode? (withoutReturn bytes) with
      | none => ([], [(number, .notText)])
      | some text =>
          let line :=
            if number = 1 then text.toList.dropWhile (· = byteOrderMark) else text.toList
          let (rules, issues) := readLines (number + 1) rest
          match readLine line with
          | .ok none => (rules, issues)
          | .ok (some rule) => (rule :: rules, issues)
          | .error issue => (rules, (number, issue) :: issues)

/-- A rule file: its path, its rules and the lines that could not be read. -/
structure RuleFile where
  path : Path := []
  rules : List Rule := []
  issues : List (Nat × LineIssue) := []

/-- A rule file, given its path and its content. -/
def readFile (path : Path) (content : Bytes) : RuleFile :=
  let (rules, issues) := readLines 1 (Lines.all content)
  ⟨path, rules, issues⟩

/-- The words for the lines of a rule file that could not be read. That the file
is not text goes unmentioned if nothing else is wrong. -/
def RuleFile.complaints (f : RuleFile) : List String :=
  match f.issues with
  | [(_, .notText)] => []
  | issues =>
      issues.map fun (number, issue) =>
        Path.display f.path ++ ": line " ++ toString number ++ ": " ++ issue.message

/-- Whether a rule is for a path, relative to the directory of its file. -/
def Rule.fits (r : Rule) (path : Path) (isDir : Bool) : Bool :=
  (!r.dirOnly || isDir) && r.pattern.fits path

/-- The verdict of the last rule that is for a path. -/
def verdict? (rules : List Rule) (path : Path) (isDir : Bool) : Option Verdict :=
  (rules.reverse.find? fun r => r.fits path isDir).map Rule.verdict

end Defs

end Ignore
end GoTags
