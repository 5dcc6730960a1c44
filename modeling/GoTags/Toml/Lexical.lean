import GoTags.Toml.Value

/-!
# Words and strings of TOML

What is read without looking at tables: blanks, comments and line ends, the four
kinds of strings, keys, and the words for numbers, truth values, dates and times.
Each reader takes characters from the front and gives back the rest.
-/

namespace GoTags
namespace Toml

section Characters

/-- The characters that separate words on a line. -/
def isBlank (c : Char) : Bool :=
  c = ' ' || c = '\t'

/-- The characters that a line may hold outside of strings' own rules: no control
characters but the tab. -/
def isPlain (c : Char) : Bool :=
  c = '\t' || (' ' ≤ c && c ≠ '\x7f')

/-- The characters of a key without quotes. -/
def isBare (c : Char) : Bool :=
  c.isAlphanum || c = '_' || c = '-'

/-- The value of a hexadecimal digit. -/
def hexValue? (c : Char) : Option Nat :=
  if c.isDigit then some (c.toNat - '0'.toNat)
  else if 'a' ≤ c ∧ c ≤ 'f' then some (c.toNat - 'a'.toNat + 10)
  else if 'A' ≤ c ∧ c ≤ 'F' then some (c.toNat - 'A'.toNat + 10)
  else none

/-- The number that hexadecimal digits stand for. -/
def hexNumber? (digits : List Char) : Option Nat :=
  digits.foldl (fun n c => n.bind fun n => (hexValue? c).map fun d => n * 16 + d) (some 0)

/-- The character that hexadecimal digits stand for. -/
def hexChar? (digits : List Char) : Option Char :=
  (hexNumber? digits).bind fun n => if n.isValidChar then some (Char.ofNat n) else none

/-- The character that an escape of one letter stands for. -/
def escape? : Char → Option Char
  | 'b' => some '\x08'
  | 't' => some '\t'
  | 'n' => some '\n'
  | 'f' => some '\x0c'
  | 'r' => some '\r'
  | '"' => some '"'
  | '\\' => some '\\'
  | _ => none

end Characters

section Lines

/-- What follows the blanks in front. -/
def skipBlanks (cs : List Char) : List Char :=
  cs.dropWhile isBlank

/-- What follows the end of a line. The end of the text ends a line too. -/
def lineEnd? : List Char → Option (List Char)
  | [] => some []
  | '\n' :: rest => some rest
  | '\r' :: '\n' :: rest => some rest
  | _ => none

/-- What follows a line on which only a comment may still stand. -/
def restOfLine? (cs : List Char) : Option (List Char) :=
  match skipBlanks cs with
  | '#' :: comment => lineEnd? (comment.dropWhile isPlain)
  | rest => lineEnd? rest

/-- What follows blanks, comments and line ends. -/
def skipGap (inComment : Bool) : List Char → List Char
  | '\n' :: rest => skipGap false rest
  | '\r' :: '\n' :: rest => skipGap false rest
  | c :: rest =>
      if inComment then if isPlain c then skipGap true rest else c :: rest
      else if isBlank c then skipGap false rest
      else if c = '#' then skipGap true rest
      else c :: rest
  | [] => []

end Lines

section Strings

/-- The text before a closing quote and what follows it, for a string with
escapes on one line. -/
def basic? : List Char → Option (List Char × List Char)
  | '"' :: rest => some ([], rest)
  | '\\' :: 'u' :: a :: b :: c :: d :: rest =>
      match hexChar? [a, b, c, d], basic? rest with
      | some x, some (text, after) => some (x :: text, after)
      | _, _ => none
  | '\\' :: 'U' :: a :: b :: c :: d :: e :: f :: g :: h :: rest =>
      match hexChar? [a, b, c, d, e, f, g, h], basic? rest with
      | some x, some (text, after) => some (x :: text, after)
      | _, _ => none
  | '\\' :: e :: rest =>
      match escape? e, basic? rest with
      | some x, some (text, after) => some (x :: text, after)
      | _, _ => none
  | c :: rest =>
      if isPlain c ∧ c ≠ '\\' then (basic? rest).map fun (text, after) => (c :: text, after)
      else none
  | [] => none

/-- The text before a closing quote and what follows it, for a string without
escapes on one line. -/
def literal? : List Char → Option (List Char × List Char)
  | '\'' :: rest => some ([], rest)
  | c :: rest =>
      if isPlain c then (literal? rest).map fun (text, after) => (c :: text, after) else none
  | [] => none

/-- How far a backslash at the end of a line reaches: not there, up to the end of
the line, or over the blanks and lines that follow. -/
inductive Fold where
  | no
  | toLineEnd
  | over
  deriving DecidableEq, Repr

/-- The text before the closing quotes and what follows them, for a string with
escapes on several lines. Up to two quotes may stand before the closing ones. -/
def basicLines? (fold : Fold) : List Char → Option (List Char × List Char)
  | '\r' :: '\n' :: rest =>
      if fold = .no then (basicLines? .no rest).map fun (text, after) => ('\n' :: text, after)
      else basicLines? .over rest
  | '"' :: '"' :: '"' :: '"' :: '"' :: rest =>
      if fold = .toLineEnd then none else some (['"', '"'], rest)
  | '"' :: '"' :: '"' :: '"' :: rest =>
      if fold = .toLineEnd then none else some (['"'], rest)
  | '"' :: '"' :: '"' :: rest => if fold = .toLineEnd then none else some ([], rest)
  | '\\' :: 'u' :: a :: b :: c :: d :: rest =>
      match fold, hexChar? [a, b, c, d], basicLines? .no rest with
      | .toLineEnd, _, _ => none
      | _, some x, some (text, after) => some (x :: text, after)
      | _, _, _ => none
  | '\\' :: 'U' :: a :: b :: c :: d :: e :: f :: g :: h :: rest =>
      match fold, hexChar? [a, b, c, d, e, f, g, h], basicLines? .no rest with
      | .toLineEnd, _, _ => none
      | _, some x, some (text, after) => some (x :: text, after)
      | _, _, _ => none
  | '\\' :: '\r' :: '\n' :: rest =>
      if fold = .toLineEnd then none else basicLines? .over rest
  | '\\' :: e :: rest =>
      if fold = .toLineEnd then none
      else if e = '\n' then basicLines? .over rest
      else if isBlank e then basicLines? .toLineEnd rest
      else
        match escape? e, basicLines? .no rest with
        | some x, some (text, after) => some (x :: text, after)
        | _, _ => none
  | c :: rest =>
      if c = '\n' ∧ fold ≠ .no then basicLines? .over rest
      else if isBlank c ∧ fold ≠ .no then basicLines? fold rest
      else if fold = .toLineEnd then none
      else if c = '\n' ∨ (isPlain c ∧ c ≠ '\\') then
        (basicLines? .no rest).map fun (text, after) => (c :: text, after)
      else none
  | [] => none

/-- The text before the closing quotes and what follows them, for a string without
escapes on several lines. -/
def literalLines? : List Char → Option (List Char × List Char)
  | '\'' :: '\'' :: '\'' :: '\'' :: '\'' :: rest => some (['\'', '\''], rest)
  | '\'' :: '\'' :: '\'' :: '\'' :: rest => some (['\''], rest)
  | '\'' :: '\'' :: '\'' :: rest => some ([], rest)
  | '\r' :: '\n' :: rest => (literalLines? rest).map fun (text, after) => ('\n' :: text, after)
  | c :: rest =>
      if c = '\n' ∨ isPlain c then
        (literalLines? rest).map fun (text, after) => (c :: text, after)
      else none
  | [] => none

/-- What follows a line end in front, which does not belong to the string. -/
def skipFirstLineEnd : List Char → List Char
  | '\n' :: rest => rest
  | '\r' :: '\n' :: rest => rest
  | cs => cs

/-- The string in front. -/
def string? : List Char → Option (List Char × List Char)
  | '"' :: '"' :: '"' :: rest => basicLines? .no (skipFirstLineEnd rest)
  | '"' :: rest => basic? rest
  | '\'' :: '\'' :: '\'' :: rest => literalLines? (skipFirstLineEnd rest)
  | '\'' :: rest => literal? rest
  | _ => none

end Strings

section Keys

/-- The part of a key in front. -/
def keyPart? (cs : List Char) : Option (List Char × List Char) :=
  match cs with
  | '"' :: rest => basic? rest
  | '\'' :: rest => literal? rest
  | _ =>
      match cs.takeWhile isBare with
      | [] => none
      | bare => some (bare, cs.dropWhile isBare)

/-- The parts of a key in front, with the dots between them. A key has no more
parts than `fuel`. -/
def key? : Nat → List Char → Option (List String × List Char)
  | 0, _ => none
  | fuel + 1, cs =>
      match keyPart? (skipBlanks cs) with
      | none => none
      | some (part, rest) =>
          match skipBlanks rest with
          | '.' :: more =>
              (key? fuel more).map fun (parts, after) => (String.ofList part :: parts, after)
          | after => some ([String.ofList part], after)

/-- The largest number of parts of a key, and of values inside each other. -/
def depthLimit : Nat := 79

end Keys

section Numbers

/-- The digits of a number without the underscores, each of which must stand
between two digits. -/
def digits? (isDigit : Char → Bool) : List Char → Option (List Char)
  | [] => none
  | [c] => if isDigit c then some [c] else none
  | c :: '_' :: rest =>
      if isDigit c then (digits? isDigit rest).map (c :: ·) else none
  | c :: rest => if isDigit c then (digits? isDigit rest).map (c :: ·) else none

/-- The number that digits stand for. -/
def number (base : Nat) (digits : List Char) : Nat :=
  digits.foldl (fun n c => n * base + (hexValue? c).getD 0) 0

/-- The digits of a decimal number, with no zero in front of others. -/
def decimal? (cs : List Char) : Option (List Char) :=
  match digits? Char.isDigit cs with
  | some ('0' :: _ :: _) => none
  | other => other

/-- A sign in front and what follows it. -/
def splitSign : List Char → Bool × List Char
  | '-' :: rest => (true, rest)
  | '+' :: rest => (false, rest)
  | cs => (false, cs)

/-- The first integer that is too large. -/
def integerLimit : Nat := Nat.pow 2 63

/-- The integer that a word stands for. -/
def integer? (word : List Char) : Option Int :=
  let based := fun (base : Nat) (isDigit : Char → Bool) (cs : List Char) =>
    match digits? isDigit cs with
    | some ds => if number base ds < integerLimit then some (Int.ofNat (number base ds)) else none
    | none => none
  match word with
  | '0' :: 'x' :: rest => based 16 (fun c => (hexValue? c).isSome) rest
  | '0' :: 'o' :: rest => based 8 (fun c => '0' ≤ c && c ≤ '7') rest
  | '0' :: 'b' :: rest => based 2 (fun c => c = '0' || c = '1') rest
  | _ =>
      let (negative, digits) := splitSign word
      match decimal? digits with
      | none => none
      | some ds =>
          let n := number 10 ds
          if negative then if n ≤ integerLimit then some (-Int.ofNat n) else none
          else if n < integerLimit then some (Int.ofNat n) else none

/-- The first number that rounds to more than a floating point number can be. -/
def floatLimit : Nat := Nat.pow 2 1024 - Nat.pow 2 970

/-- Whether digits times a power of ten stay below the limit. The number of digits
settles all but the closest cases. -/
def belowFloatLimit (digits : List Char) (exponent : Int) : Bool :=
  let significant := digits.dropWhile (· = '0')
  let magnitude := Int.ofNat significant.length + exponent
  if significant = [] then true
  else if magnitude < 309 then true
  else if 309 < magnitude then false
  else if 0 ≤ exponent then number 10 significant * Nat.pow 10 exponent.toNat < floatLimit
  else number 10 significant < floatLimit * Nat.pow 10 (-exponent).toNat

/-- The exponent that a word ends in, if it does, and what stands before it. -/
def splitExponent (word : List Char) : List Char × Option (List Char) :=
  let isMark := fun c => c = 'e' || c = 'E'
  match word.dropWhile fun c => !isMark c with
  | [] => (word, none)
  | _ :: rest => (word.takeWhile fun c => !isMark c, some rest)

/-- Whether a word is a number with a fraction or an exponent, not too large. -/
def isFloat (word : List Char) : Bool :=
  let (negative, body) := splitSign word
  if body = ['i', 'n', 'f'] ∨ body = ['n', 'a', 'n'] then true
  else
    let (mantissa, exponent?) := splitExponent body
    let whole := mantissa.takeWhile (· ≠ '.')
    let fraction? := mantissa.dropWhile (· ≠ '.')
    if exponent?.isNone && fraction? = [] then false
    else
      let fraction := match fraction? with
        | [] => some []
        | _ :: ds => digits? Char.isDigit ds
      let exponent := match exponent? with
        | none => some (0 : Int)
        | some e =>
            let (down, ds) := splitSign e
            (digits? Char.isDigit ds).map fun ds =>
              if down then -Int.ofNat (number 10 ds) else Int.ofNat (number 10 ds)
      match decimal? whole, fraction, exponent with
      | some ws, some fs, some e => negative || belowFloatLimit (ws ++ fs) (e - Int.ofNat fs.length)
      | _, _, _ => false

end Numbers

section Times

/-- The number that so many digits in front stand for, and what follows them. -/
def fixed? (width : Nat) (cs : List Char) : Option (Nat × List Char) :=
  let ds := cs.take width
  if ds.length = width ∧ ds.all Char.isDigit then some (number 10 ds, cs.drop width) else none

/-- What follows a character in front. -/
def after? (c : Char) : List Char → Option (List Char)
  | x :: rest => if x = c then some rest else none
  | [] => none

/-- The number of days of a month. -/
def monthDays (year month : Nat) : Nat :=
  if month = 2 then
    if year % 4 = 0 ∧ (year % 100 ≠ 0 ∨ year % 400 = 0) then 29 else 28
  else if month = 4 ∨ month = 6 ∨ month = 9 ∨ month = 11 then 30
  else 31

/-- What follows a date in front. -/
def date? (cs : List Char) : Option (List Char) := do
  let (year, rest) ← fixed? 4 cs
  let (month, rest) ← fixed? 2 (← after? '-' rest)
  let (day, rest) ← fixed? 2 (← after? '-' rest)
  if 1 ≤ month ∧ month ≤ 12 ∧ 1 ≤ day ∧ day ≤ monthDays year month then some rest else none

/-- What follows a time in front. -/
def time? (cs : List Char) : Option (List Char) := do
  let (hour, rest) ← fixed? 2 cs
  let (minute, rest) ← fixed? 2 (← after? ':' rest)
  let (second, rest) ← fixed? 2 (← after? ':' rest)
  if hour ≤ 23 ∧ minute ≤ 59 ∧ second ≤ 60 then
    match rest with
    | '.' :: d :: more => if d.isDigit then some (more.dropWhile Char.isDigit) else none
    | ['.'] => none
    | _ => some rest
  else none

/-- Whether what is left of a word is the distance from universal time, or
nothing. -/
def isOffset (cs : List Char) : Bool :=
  match cs with
  | [] => true
  | ['Z'] => true
  | ['z'] => true
  | sign :: rest =>
      (sign = '+' || sign = '-') &&
        match fixed? 2 rest with
        | some (hour, ':' :: more) =>
            match fixed? 2 more with
            | some (minute, []) => hour ≤ 23 && minute ≤ 59
            | _ => false
        | _ => false

/-- Whether a word is a time of day with a distance from universal time or not. -/
def isOffsetTime (word : List Char) : Bool :=
  (time? word).any isOffset

/-- Whether a word is a time of day. -/
def isTime (word : List Char) : Bool :=
  time? word = some []

/-- Whether a word is a date alone. -/
def isDate (word : List Char) : Bool :=
  date? word = some []

/-- Whether a word is a date and a time. -/
def isDateTime (word : List Char) : Bool :=
  match date? word with
  | some (mark :: rest) => (mark = 'T' || mark = 't') && isOffsetTime rest
  | _ => false

end Times

section Words

/-- The characters of words. -/
def isWord (c : Char) : Bool :=
  c.isAlphanum || c = '_' || c = '+' || c = '-' || c = '.' || c = ':'

/-- The value that a word stands for. -/
def wordValue? (word : List Char) : Option Value :=
  if word = ['t', 'r', 'u', 'e'] then some (.boolean true)
  else if word = ['f', 'a', 'l', 's', 'e'] then some (.boolean false)
  else if isDate word || isDateTime word || isTime word then
    some (.dateTime (String.ofList word))
  else
    match integer? word with
    | some n => some (.integer n)
    | none => if isFloat word then some (.float (String.ofList word)) else none

/-- The value of the word in front. A date and a time may have a space between
them. -/
def word? (cs : List Char) : Option (Value × List Char) :=
  let word := cs.takeWhile isWord
  let rest := cs.dropWhile isWord
  match isDate word, rest with
  | true, ' ' :: more =>
      let time := more.takeWhile isWord
      if isOffsetTime time then
        some (.dateTime (String.ofList (word ++ ' ' :: time)), more.dropWhile isWord)
      else some (.dateTime (String.ofList word), rest)
  | _, _ => (wordValue? word).map (·, rest)

end Words

end Toml
end GoTags
