/-!
# Events

What a run reports about its progress, apart from its result. An event has a
level and names the part of the program that it comes from, so that a filter
can choose among them.
-/

namespace GoTags

section Defs

/-- The weight of an event, from the gravest to the slightest. -/
inductive Level where
  | error
  | warn
  | info
  | debug
  | trace
  deriving DecidableEq, Repr

/-- Levels in order: a filter that lets a level through lets every graver one
through as well. -/
def Level.rank : Level → Nat
  | .error => 1
  | .warn => 2
  | .info => 3
  | .debug => 4
  | .trace => 5

/-- The word in front of an event. -/
def Level.word : Level → String
  | .error => "ERROR"
  | .warn => "WARN"
  | .info => "INFO"
  | .debug => "DEBUG"
  | .trace => "TRACE"

/-- The parts of the program that report events. -/
inductive Origin where
  | config
  | chunk
  | indexer
  | lines
  | storage
  | command
  deriving DecidableEq, Repr

/-- The name under which a filter knows a part. -/
def Origin.target : Origin → String
  | .config => "tago_core::config"
  | .chunk => "tago_index::chunk"
  | .indexer => "tago_index::indexer"
  | .lines => "tago_index::resolver"
  | .storage => "tago_storage"
  | .command => "tago::commands_tags"

/-- One reported event. -/
structure Event where
  level : Level
  origin : Origin
  text : String
  deriving DecidableEq, Repr

/-- The hexadecimal digit of a number below sixteen. -/
def hexDigit (n : Nat) : Char :=
  if n < 10 then Char.ofNat (48 + n) else Char.ofNat (87 + n)

/-- A character of an event as it is shown. Those that a terminal could take for
commands are shown by number. -/
def Event.shownChar (c : Char) : List Char :=
  let n := c.toNat
  let digits := [hexDigit (n / 16), hexDigit (n % 16)]
  if n = 0x1b ∨ n = 0x07 ∨ n = 0x08 ∨ n = 0x0c ∨ n = 0x7f then '\\' :: 'x' :: digits
  else if 0x80 ≤ n ∧ n ≤ 0x9f then '\\' :: 'u' :: '\x7b' :: digits ++ ['\x7d']
  else [c]

/-- The line that shows an event. -/
def Event.render (e : Event) : String :=
  e.level.word ++ " " ++ String.ofList (e.text.toList.flatMap Event.shownChar)

end Defs

end GoTags
