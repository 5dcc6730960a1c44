import GoTags.Grammar.Tables

/-!
# States of a parser

**Input.** The tables of a grammar.

**Algorithm.** A state is the list of productions that are under way at a point
of the text: how much of each has been read and which terminals may follow it
when it is done. Passing a symbol takes every production that expects the symbol
a step further, and opens the productions that begin with it wherever something
expected can have them at its front.

**Results.** For a state and a terminal, whether to read on, which productions
to close, or both. Where both are open the ranks decide as far as they can.
-/

namespace GoTags
namespace Grammar

section Defs

/-- A production under way: what is still expected, and what may follow. -/
structure Item where
  number : Nat
  production : Production
  passed : Nat
  rest : List Symbol
  follow : TerminalSet

/-- Productions under way, in the order of their numbers. -/
abbrev State := List Item

/-- Whether two items are the same production, equally far along. -/
def Item.sameCore (a b : Item) : Bool :=
  a.number == b.number && a.passed == b.passed

/-- Whether an item comes before another. -/
def Item.before (a b : Item) : Bool :=
  a.number < b.number || (a.number == b.number && a.passed < b.passed)

/-- Whether two states are the same. -/
def State.same : State → State → Bool
  | [], [] => true
  | a :: as, b :: bs => a.sameCore b && a.follow == b.follow && State.same as bs
  | _, _ => false

/-- Adds an item to a state. An item that is there already is followed by what
may follow either. -/
def State.insert (a : Item) : State → State
  | [] => [a]
  | b :: rest =>
      if a.sameCore b then { b with follow := a.follow ||| b.follow } :: rest
      else if a.before b then a :: b :: rest
      else b :: State.insert a rest

namespace Tables

variable (g : Tables)

/-- The state before anything has been read. -/
def initial : State :=
  (g.begun.toList.flatten.filter fun n => n.production.head == g.spec.start).foldl
    (fun s n => State.insert ⟨n.number, n.production, 0, n.production.body, 0⟩ s) []

/-- The terminals that can come next in an item. -/
def expected (i : Item) : TerminalSet :=
  match i.rest with
  | [] => i.follow
  | s :: _ => g.first.getD s 0

/-- The terminals that can come next in a state. -/
def valid (s : State) : TerminalSet :=
  s.foldl (fun set i => set ||| g.expected i) 0

/-- What may follow a production of `head` that is opened because of an item;
nothing if the item does not expect one. -/
def opening (head : Symbol) (i : Item) : Option TerminalSet :=
  match i.rest with
  | [] => none
  | s :: rest =>
      match (g.fronts.getD s #[]).getD head none with
      | none => none
      | some a =>
          let after :=
            match rest with
            | [] => i.follow
            | t :: _ => g.first.getD t 0
          some (if a.passes then a.within ||| after else a.within)

/-- What may follow a production of `head` that is opened in a state. -/
def openings (s : State) (head : Symbol) : Option TerminalSet :=
  s.foldl
    (fun found i =>
      match g.opening head i with
      | none => found
      | some set => some (set ||| found.getD 0))
    none

/-- The state after a symbol. -/
def goto (s : State) (x : Symbol) : State :=
  let moved := s.foldl
    (fun next i =>
      match i.rest with
      | [] => next
      | y :: rest =>
          if x == y then State.insert { i with passed := i.passed + 1, rest } next else next)
    []
  (g.begun.getD x []).foldl
    (fun next n =>
      match g.openings s n.production.head with
      | none => next
      | some follow =>
          State.insert ⟨n.number, n.production, 1, n.production.body.tail, follow⟩ next)
    moved

/-- What to do in a state at a terminal: the productions to close, and whether
to read on. -/
structure Action where
  close : List Production
  read : Bool

/-- The productions of the highest rank. -/
def highest (ps : List Production) : List Production :=
  ps.filter fun p => ps.all fun q => q.rank ≤ p.rank

/-- Settles between closing productions of one rank and reading on, given the
ranks of the productions that read on. Reading wins if some of those are higher
and none lower, closing if some are lower and none higher; if all are equal the
side decides, and without one both are kept. -/
def settleConflict (close : List Production) (reading : List Int) : Action :=
  match close with
  | [] => ⟨[], true⟩
  | p :: _ =>
      let higher := reading.any (p.rank < ·)
      let lower := reading.any (· < p.rank)
      if higher && !lower then ⟨[], true⟩
      else if lower && !higher then ⟨close, false⟩
      else if !higher && !lower then
        if close.all (·.side == some .left) then ⟨close, false⟩
        else if close.all (·.side == some .right) then ⟨[], true⟩
        else ⟨close, true⟩
      else ⟨close, true⟩

/-- What to do in a state at a terminal. -/
def action (s : State) (t : Symbol) : Action :=
  let close := highest
    ((s.filter fun i => i.rest.isEmpty && i.follow.has t).map Item.production)
  let reading := s.filter fun i =>
    !i.rest.isEmpty && TerminalSet.has (g.expected i) t
  if reading.isEmpty then ⟨close, false⟩
  else settleConflict close
    ((reading.filter fun i => 0 < i.passed).map fun i => i.production.rank)

end Tables

end Defs

end Grammar
end GoTags
