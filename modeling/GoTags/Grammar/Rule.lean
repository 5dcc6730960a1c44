/-!
# Rules and productions

**Input.** A grammar written with sequences, choices and repetitions, in which
every way of forming a category may carry a rank for resolving conflicts and a
weight for choosing between readings of the same text.

**Algorithm.** Each distinct repetition gets a symbol of its own, which is
formed from its body alone or from itself followed by the body. Then the choices
are multiplied out.

**Results.** The productions of the grammar: a head and a string of symbols. No
production of a symbol other than the start has an empty body, as long as no
rule of the grammar describes the empty string.
-/

namespace GoTags
namespace Grammar

section Defs

/-- Symbols are numbered: first the terminals, then the categories, then the
repetitions. -/
abbrev Symbol := Nat

/-- A description of strings of symbols. -/
inductive Rule where
  | empty
  | symbol (s : Symbol)
  | seq (r s : Rule)
  | alt (r s : Rule)
  | many1 (r : Rule)
  deriving DecidableEq, Repr

namespace Rule

/-- One rule after the other. -/
def sequence : List Rule → Rule
  | [] => .empty
  | [r] => r
  | r :: rs => .seq r (sequence rs)

/-- Any one of several rules. -/
def choice : List Rule → Rule
  | [] => .empty
  | [r] => r
  | r :: rs => .alt r (choice rs)

/-- A rule or nothing. -/
def opt (r : Rule) : Rule :=
  .alt r .empty

/-- A rule any number of times. -/
def many (r : Rule) : Rule :=
  opt (.many1 r)

/-- A rule once or more, with a separator between the occurrences. -/
def separated (r separator : Rule) : Rule :=
  .seq r (many (.seq separator r))

/-- Replaces every repetition by its symbol. The bodies met so far are numbered
from `base`; equal bodies share a symbol. -/
def lift (base : Nat) : Rule → List Rule → Rule × List Rule
  | .empty, bodies => (.empty, bodies)
  | .symbol s, bodies => (.symbol s, bodies)
  | .seq r s, bodies =>
      let (r', bodies) := lift base r bodies
      let (s', bodies) := lift base s bodies
      (.seq r' s', bodies)
  | .alt r s, bodies =>
      let (r', bodies) := lift base r bodies
      let (s', bodies) := lift base s bodies
      (.alt r' s', bodies)
  | .many1 r, bodies =>
      let (r', bodies) := lift base r bodies
      match bodies.idxOf? r' with
      | some i => (.symbol (base + i), bodies)
      | none => (.symbol (base + bodies.length), bodies ++ [r'])

/-- The strings of a rule without repetitions. -/
def strings : Rule → List (List Symbol)
  | .empty => [[]]
  | .symbol s => [[s]]
  | .seq r s => r.strings.flatMap fun u => s.strings.map fun v => u ++ v
  | .alt r s => r.strings ++ s.strings
  | .many1 r => r.strings

end Rule

/-- The side to which a production of a given rank groups. -/
inductive Side where
  | left
  | right
  deriving DecidableEq, Repr

/-- One way of forming a category. -/
structure Form where
  rule : Rule
  rank : Int := 0
  side : Option Side := none
  weight : Int := 0

/-- A head and the string of symbols that it may be formed from. -/
structure Production where
  head : Symbol
  body : List Symbol
  rank : Int
  side : Option Side
  weight : Int
  deriving DecidableEq, Repr

/-- A grammar: how many terminals and symbols there are, which category a whole
text has, and the productions. -/
structure Spec where
  terminals : Nat
  symbols : Nat
  start : Symbol
  productions : List Production

/-- The productions of a form whose repetitions have been replaced. -/
def Form.productions (head : Symbol) (f : Form) : List Production :=
  f.rule.strings.eraseDups.map fun body => ⟨head, body, f.rank, f.side, f.weight⟩

/-- Replaces the repetitions in the forms of one category. -/
def liftForms (base : Nat) : List Form → List Rule → List Form × List Rule
  | [], bodies => ([], bodies)
  | f :: fs, bodies =>
      let (r, bodies) := f.rule.lift base bodies
      let (fs, bodies) := liftForms base fs bodies
      ({ f with rule := r } :: fs, bodies)

/-- Replaces the repetitions in the forms of all categories. -/
def liftAll (base : Nat) : List (List Form) → List Rule → List (List Form) × List Rule
  | [], bodies => ([], bodies)
  | forms :: rest, bodies =>
      let (forms, bodies) := liftForms base forms bodies
      let (rest, bodies) := liftAll base rest bodies
      (forms :: rest, bodies)

/-- The productions of a repetition: the body, or more of the same and then the
body. -/
def repetition (head : Symbol) (body : Rule) : List Production :=
  let bodies := body.strings.eraseDups
  (bodies ++ bodies.map (head :: ·)).map fun s => ⟨head, s, 0, none, 0⟩

/-- The grammar whose category number `i` is formed as the `i`-th entry says. -/
def Spec.ofForms (terminals : Nat) (start : Symbol) (forms : List (List Form)) : Spec :=
  let base := terminals + forms.length
  let (forms, bodies) := liftAll base forms []
  { terminals
    symbols := base + bodies.length
    start
    productions :=
      (forms.zipIdx.flatMap fun (fs, i) => fs.flatMap (Form.productions (terminals + i))) ++
        bodies.zipIdx.flatMap fun (body, i) => repetition (base + i) body }

end Defs

end Grammar
end GoTags
