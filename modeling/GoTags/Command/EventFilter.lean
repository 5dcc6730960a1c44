import GoTags.Event
import GoTags.Text.Blank

/-!
# Which events are shown

**Input.** A filter as text: directives with commas between them. A directive is
a level, a target with a level after an equals sign, or a target alone, which
lets everything through. A target matches those that start with it.

**Results.** Whether an event is shown. The directive with the longest target
decides; events that no directive is for are not shown.
-/

namespace GoTags
namespace EventFilter

section Defs

/-- The gravest level that is not shown any more, as a rank: zero shows nothing. -/
abbrev Threshold := Nat

/-- A directive: for events whose origin starts with a target, or for all. One
that asks for a span is for none, since there are no spans. -/
structure Directive where
  target : Option String
  spans : Bool
  threshold : Threshold
  deriving DecidableEq, Repr

/-- A filter. -/
abbrev Filter := List Directive

/-- The threshold that a word stands for, in any case of letters, or as a digit. -/
def threshold? (word : String) : Option Threshold :=
  match word.toLower with
  | "off" => some 0
  | "error" => some 1
  | "warn" => some 2
  | "info" => some 3
  | "debug" => some 4
  | "trace" => some 5
  | "" => some 1
  | other =>
      match other.toList with
      | [c] => if '0' ≤ c ∧ c ≤ '5' then some (c.toNat - '0'.toNat) else none
      | _ => none

/-- The threshold that shows everything. -/
def everything : Threshold := 5

/-- Whether a character may stand in a target. -/
def isTargetChar (c : Char) : Bool :=
  c.isAlphanum || c = '_' || c = ':' || c = '-' || '\x7f' < c

/-- The directive that a text gives. -/
def directive? (text : List Char) : Option Directive :=
  let head := text.takeWhile isTargetChar
  let rest := text.dropWhile isTargetChar
  let target := if head = [] then none else some (String.ofList head)
  match rest with
  | [] =>
      match threshold? (String.ofList head) with
      | some t => some ⟨none, false, t⟩
      | none => some ⟨target, false, everything⟩
  | '=' :: level =>
      if head = [] then none
      else if level = [] then some ⟨target, false, everything⟩
      else (threshold? (String.ofList level)).map fun t => ⟨target, false, t⟩
  | '[' :: span =>
      match span.dropWhile (· ≠ ']') with
      | [_] => some ⟨target, true, everything⟩
      | _ :: '=' :: level => (threshold? (String.ofList level)).map fun t => ⟨target, true, t⟩
      | _ => none
  | _ => none

/-- The parts of a text between commas. -/
def splitCommas : List Char → List (List Char)
  | [] => [[]]
  | ',' :: rest => [] :: splitCommas rest
  | c :: rest =>
      match splitCommas rest with
      | [] => [[c]]
      | part :: parts => (c :: part) :: parts

/-- The filter that shows events up to a level. -/
def upTo (level : Level) : Filter :=
  [⟨none, false, level.rank⟩]

/-- The filter that a text gives. Without a directive, errors are shown. -/
def read? (text : String) : Option Filter :=
  let parts := ((splitCommas text.toList).map Blank.trim).filter (· ≠ [])
  match parts.mapM directive? with
  | some [] => some (upTo .error)
  | some directives => some directives
  | none => none

/-- Whether a directive is for events of an origin. -/
def Directive.isFor (d : Directive) (o : Origin) : Bool :=
  !d.spans && d.target.all fun t => t.toList.isPrefixOf o.target.toList

/-- The length of the target of a directive; one for all events has the least. -/
def Directive.weight (d : Directive) : Nat :=
  match d.target with
  | some t => t.utf8ByteSize + 1
  | none => 0

/-- The directive that decides: the longest target wins, and of two with the same
target the later. -/
def decisive? (f : Filter) (o : Origin) : Option Directive :=
  (f.filter fun d => d.isFor o).foldl
    (fun best d =>
      match best with
      | some b => if b.weight ≤ d.weight then some d else some b
      | none => some d)
    none

/-- Whether an event is shown. -/
def shows (f : Filter) (e : Event) : Bool :=
  match decisive? f e.origin with
  | some d => e.level.rank ≤ d.threshold
  | none => false

end Defs

end EventFilter
end GoTags
