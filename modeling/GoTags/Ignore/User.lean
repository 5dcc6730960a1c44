import GoTags.Ignore.Scope

/-!
# The rules of a user

**Input.** The home directory and, if there is one, the directory of settings.

**Algorithm.** The settings for repositories may name a file of rules. They are
looked for in the home directory and then in the directory of settings, not by
their sections but by the first place that looks like the setting: at the start of
a line, with blanks and quotes around its parts. If neither names a file, the
directory of settings may hold one.

**Results.** The rules of that file. They start from the working directory.
-/

namespace GoTags
namespace Ignore

section Settings

/-- Whether a byte is blank. -/
def isSpace (b : UInt8) : Bool :=
  b = 0x20 || (0x09 ≤ b && b ≤ 0x0d)

/-- A text without the blanks in front, which may be line ends. -/
def skipSpace (text : Bytes) : Bytes :=
  text.dropWhile isSpace

/-- The quote that a value may stand in. -/
def quote : UInt8 := 0x22

/-- Whether only blanks are left of a line. -/
def endsLine (text : Bytes) : Bool :=
  (text.takeWhile isSpace).contains Bytes.newline || skipSpace text = []

/-- Whether only blanks, and a quote among them, are left of a line. -/
def closesValue (text : Bytes) : Bool :=
  endsLine text ||
    match skipSpace text with
    | b :: rest => b = quote && endsLine rest
    | [] => false

/-- The value in front of a text: bytes that are not blank, up to the first of them
after which the value may close. -/
def value? : Bytes → Option Bytes
  | [] => none
  | b :: rest =>
      if isSpace b then none
      else if closesValue rest then some [b]
      else (value? rest).map (b :: ·)

/-- The value after a sign of equality. A quote in front is part of the value only
if there is none without it. -/
def quotedValue? (text : Bytes) : Option Bytes :=
  match skipSpace text with
  | [] => none
  | b :: rest =>
      if b = quote then (value? (skipSpace rest)).or (value? (b :: rest))
      else value? (b :: rest)

/-- A byte, in lower case if it is a letter. -/
def lower (b : UInt8) : UInt8 :=
  if 0x41 ≤ b && b ≤ 0x5a then b + 0x20 else b

/-- The name of the setting, in lower case. -/
def settingName : Bytes := Bytes.ascii "excludesfile"

/-- The value of the setting, if a text starts with it. -/
def settingAt? (text : Bytes) : Option Bytes :=
  let line := skipSpace text
  if (line.take settingName.length).map lower = settingName then
    match skipSpace (line.drop settingName.length) with
    | 0x3d :: rest => quotedValue? rest
    | _ => none
  else none

/-- The value of the setting where a line of a text starts with it first. `fresh` tells
whether the text itself is at the start of a line. -/
def setting? (fresh : Bool) : Bytes → Option Bytes
  | [] => none
  | b :: rest =>
      (if fresh then settingAt? (b :: rest) else none).or (setting? (b = Bytes.newline) rest)

/-- A path with the home directory for every tilde. -/
def expandTilde (home : Path) (p : Path) : Path :=
  p.flatMap fun b => if b = 0x7e then Utf8.encode (Path.display home) else [b]

end Settings

section Files

variable (fs : FileSystem) (home : Path) (configHome : Option Path)

/-- The directory of settings. -/
def configDir : Path :=
  match configHome with
  | some (b :: rest) => b :: rest
  | _ => home.join (Bytes.ascii ".config")

/-- The file of rules that settings name. What is no text is no name. -/
def namedRules? (settings : Path) : Option Path :=
  match fs.read settings with
  | .error _ => none
  | .ok content =>
      match setting? true content with
      | none => none
      | some value => (Utf8.decode? value).map fun _ => expandTilde home value

/-- The path of a user's rules. -/
def userRulesPath : Path :=
  (namedRules? fs home (home.join (Bytes.ascii ".gitconfig"))).getD
    ((namedRules? fs home ((configDir home configHome).join (Bytes.ascii "git/config"))).getD
      ((configDir home configHome).join (Bytes.ascii "git/ignore")))

/-- The rules of a user. There are none if the working directory is not known. -/
def userRules : UserRules :=
  match fs.workPath? with
  | none => {}
  | some here => ⟨here, (rulesAt fs (userRulesPath fs home configHome)).rules⟩

end Files

end Ignore
end GoTags
