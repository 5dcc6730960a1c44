import GoTags.Grammar.Rule

/-!
# What a grammar says about neighbours

**Input.** The productions of a grammar, none with an empty body.

**Algorithm.** Least fixed points: a table is swept over until it stays the
same.

**Results.** For every symbol the terminals it can begin with and the terminals
that can follow it somewhere; and for every pair of symbols whether the second
can stand at the very front of the first, and what may then follow it there.
-/

namespace GoTags
namespace Grammar

section Defs

/-- A set of terminals: bit `t` is set when terminal `t` belongs to it. -/
abbrev TerminalSet := Nat

/-- Whether a terminal belongs to a set. -/
def TerminalSet.has (s : TerminalSet) (t : Symbol) : Bool :=
  s.testBit t

/-- What follows a symbol that stands at the front of another: some terminals
within it, and, if the front reaches up to its end, whatever follows the whole. -/
structure Ahead where
  within : TerminalSet
  passes : Bool
  deriving DecidableEq, Repr

/-- Applies a step until nothing changes, at most `fuel` times. -/
def settle {α : Type} [BEq α] (step : α → α) : Nat → α → α
  | 0, x => x
  | fuel + 1, x =>
      let y := step x
      if y == x then x else settle step fuel y

/-- Adds terminals to an entry of a table. -/
def addTo (table : Array TerminalSet) (s : Symbol) (more : TerminalSet) : Array TerminalSet :=
  table.modify s (· ||| more)

/-- The table that holds every terminal at its own place. -/
def ownTerminals (g : Spec) : Array TerminalSet :=
  Array.ofFn fun i : Fin g.symbols => if i.val < g.terminals then 1 <<< i.val else 0

/-- The terminals that each symbol can begin with. -/
def firstSets (g : Spec) : Array TerminalSet :=
  settle
    (fun table =>
      g.productions.foldl
        (fun table p =>
          match p.body with
          | [] => table
          | s :: _ => addTo table p.head (table.getD s 0))
        table)
    g.symbols (ownTerminals g)

/-- One sweep of the table of followers through the body of a production. -/
def followBody (first : Array TerminalSet) (head : Symbol) :
    List Symbol → Array TerminalSet → Array TerminalSet
  | [], table => table
  | [s], table => addTo table s (table.getD head 0)
  | s :: t :: rest, table =>
      followBody first head (t :: rest) (addTo table s (first.getD t 0))

/-- The terminals that can follow each symbol somewhere. -/
def followSets (g : Spec) (first : Array TerminalSet) : Array TerminalSet :=
  settle
    (fun table => g.productions.foldl (fun table p => followBody first p.head p.body table) table)
    g.symbols (Array.replicate g.symbols 0)

/-- An edge of the grammar: a symbol, the one in front of one of its bodies, and
the terminals that begin the rest of the body, if there is a rest. -/
structure Edge where
  head : Symbol
  front : Symbol
  rest : Option TerminalSet
  deriving DecidableEq, Repr

/-- The edges between categories and repetitions. -/
def edges (g : Spec) (first : Array TerminalSet) : List Edge :=
  (g.productions.filterMap fun p =>
    match p.body with
    | [] => none
    | s :: rest =>
        if s < g.terminals then none
        else some ⟨p.head, s, rest.head?.map fun t => first.getD t 0⟩).eraseDups

/-- Joins what is known about a front with what an edge adds. -/
def Ahead.join : Option Ahead → Ahead → Option Ahead
  | none, b => some b
  | some a, b => some ⟨a.within ||| b.within, a.passes || b.passes⟩

/-- The symbols that can stand at the front of a symbol, and what follows them. -/
def frontsOf (g : Spec) (es : List Edge) (s : Symbol) : Array (Option Ahead) :=
  settle
    (fun table =>
      es.foldl
        (fun table e =>
          match table.getD e.head none with
          | none => table
          | some a =>
              let added :=
                match e.rest with
                | some terminals => ⟨terminals, false⟩
                | none => a
              table.modify e.front fun old => Ahead.join old added)
        table)
    g.symbols ((Array.replicate g.symbols none).set! s (some ⟨0, true⟩))

/-- A production and its number. -/
structure Numbered where
  number : Nat
  production : Production

/-- The tables that parsing looks up. -/
structure Tables where
  spec : Spec
  first : Array TerminalSet
  follow : Array TerminalSet
  fronts : Array (Array (Option Ahead))
  /-- The productions whose body begins with each symbol. -/
  begun : Array (List Numbered)

/-- The tables of a grammar. -/
def Tables.of (g : Spec) : Tables :=
  let first := firstSets g
  let es := edges g first
  let numbered := g.productions.zipIdx.map fun (p, i) => Numbered.mk i p
  { spec := g
    first
    follow := followSets g first
    fronts := Array.ofFn fun i : Fin g.symbols =>
      if i.val < g.terminals then #[] else frontsOf g es i.val
    begun := Array.ofFn fun i : Fin g.symbols =>
      numbered.filter fun n => n.production.body.head? == some i.val }

end Defs

end Grammar
end GoTags
