import GoTags.Grammar.State

/-!
# Parsing

**Input.** The tables of a grammar, and a way to read the next token of a text
given the state of the parser, since the state decides what counts as a token.

**Algorithm.** The parser follows all readings at once. They share a stack in
the form of a graph: a node has a state and links back to the nodes below it,
each link with the tree of the symbol between. At a token all productions that
can be closed are closed, along every path; then the token is put on every node
that accepts it. Two readings that meet in one state are one node from there on,
and of two trees between the same nodes the heavier one is kept.

Readings may disagree about where tokens end, so the nodes on top wait at their
own places in the text, and the one least far along goes first.

**Results.** A tree of the start category whose leaves are the tokens, or the
offset at which the last reading came to an end.
-/

namespace GoTags
namespace Grammar

section Defs

/-- A syntax tree. Leaves are tokens, given by the bytes they occupy. -/
inductive Tree where
  | leaf (symbol : Symbol) (start stop : Nat)
  | node (symbol : Symbol) (children : List Tree)
  deriving Repr

/-- A token that has been read: its symbol, its bytes, and where reading goes on. -/
structure Token (κ : Type) where
  symbol : Symbol
  start : Nat
  stop : Nat
  after : κ

/-- How tokens are read: the next token at a cursor in some state, or the offset
where there is none; and the offset of a cursor. -/
structure Scanner (κ : Type) where
  next : State → κ → Except Nat (Token κ)
  offset : κ → Nat

/-- A node of the shared stack. -/
inductive Stack where
  | node (id : Nat) (state : State) (links : List (Stack × Tree × Int))

namespace Stack

/-- The number by which a node is told from others. -/
def id : Stack → Nat
  | node n _ _ => n

/-- The state of a node. -/
def state : Stack → State
  | node _ s _ => s

/-- The links of a node to the nodes below it. -/
def links : Stack → List (Stack × Tree × Int)
  | node _ _ ls => ls

end Stack

/-- A way down the stack: where it ends, the trees passed, in the order of the
text, and their weight. -/
structure Way where
  base : Stack
  trees : List Tree
  weight : Int

/-- All ways of a given length down from a node. -/
def ways : Nat → Stack → List Way
  | 0, s => [⟨s, [], 0⟩]
  | n + 1, s =>
      s.links.flatMap fun (below, tree, weight) =>
        (ways n below).map fun w => ⟨w.base, w.trees ++ [tree], w.weight + weight⟩

/-- A link about to be put on the stack, with the state above it. -/
structure Push where
  state : State
  below : Stack
  tree : Tree
  weight : Int

/-- Puts a link into the list of a node's links. Between the same two nodes only
a heavier tree replaces the one there; then or for a new link the result is
given. -/
def addLink (below : Stack) (tree : Tree) (weight : Int) :
    List (Stack × Tree × Int) → Option (List (Stack × Tree × Int))
  | [] => some [(below, tree, weight)]
  | (b, t, w) :: rest =>
      if b.id == below.id then
        if w < weight then some ((below, tree, weight) :: rest) else none
      else (addLink below tree weight rest).map ((b, t, w) :: ·)

/-- Puts a link on the node with its state, or on a new node numbered `fresh`. -/
def addPush (fresh : Nat) (p : Push) : List Stack → Option (List Stack)
  | [] => some [.node fresh p.state [(p.below, p.tree, p.weight)]]
  | s :: rest =>
      if s.state.same p.state then
        (addLink p.below p.tree p.weight s.links).map fun ls => .node s.id s.state ls :: rest
      else (addPush fresh p rest).map (s :: ·)

variable (g : Tables)

/-- What closing a production after a new link puts on the stack. -/
def closings (p : Push) (rule : Production) : List Push :=
  (ways (rule.body.length - 1) p.below).map fun w =>
    { state := g.goto w.base.state rule.head
      below := w.base
      tree := .node rule.head (w.trees ++ [p.tree])
      weight := w.weight + p.weight + rule.weight }

/-- Puts links on the stack and closes what can be closed at a terminal, until
nothing is left to do. New nodes are numbered from `fresh`. -/
def closeAll (t : Symbol) : Nat → Nat → List Push → List Stack → List Stack × Nat
  | 0, fresh, _, tops => (tops, fresh)
  | _, fresh, [], tops => (tops, fresh)
  | fuel + 1, fresh, p :: rest, tops =>
      match addPush fresh p tops with
      | none => closeAll t fuel fresh rest tops
      | some tops =>
          let more := (g.action p.state t).close.flatMap (closings g p)
          closeAll t fuel (fresh + 1) (rest ++ more) tops

/-- A node on top of the stack, waiting at a place in the text. -/
structure Head (κ : Type) where
  cursor : κ
  top : Stack

variable {κ : Type} (sc : Scanner κ)

/-- The links of a node, to be put on the stack again. -/
def Stack.pushes (s : Stack) : List Push :=
  s.links.map fun (below, tree, weight) => ⟨s.state, below, tree, weight⟩

/-- Adds a waiting node; nodes at the same place in the same state become one. -/
def addHead (h : Head κ) : List (Head κ) → List (Head κ)
  | [] => [h]
  | k :: rest =>
      if sc.offset k.cursor == sc.offset h.cursor && k.top.state.same h.top.state then
        { k with top := .node k.top.id k.top.state (k.top.links ++ h.top.links) } :: rest
      else k :: addHead h rest

/-- The nodes that wait for the same token. -/
structure Group (κ : Type) where
  token : Token κ
  tops : List Stack

/-- Adds a node to the group that waits for the same token. -/
def addToGroup (token : Token κ) (top : Stack) : List (Group κ) → List (Group κ)
  | [] => [⟨token, [top]⟩]
  | gr :: rest =>
      if gr.token.symbol == token.symbol && gr.token.start == token.start &&
          gr.token.stop == token.stop then
        { gr with tops := gr.tops ++ [top] } :: rest
      else gr :: addToGroup token top rest

/-- The state of a parse between tokens: waiting nodes, the next free number,
and the farthest offset at which a reading ended. -/
structure Progress (κ : Type) where
  heads : List (Head κ)
  fresh : Nat
  farthest : Nat

/-- The tree of the whole text, if a node that has just accepted the last token
completes it. -/
def completed? (s : Stack) : Option Tree :=
  s.state.findSome? fun i =>
    if i.rest.isEmpty && i.production.head == g.spec.start then
      (ways i.production.body.length s).head?.map fun w => .node i.production.head w.trees
    else none

/-- Closes what can be closed at the token of a group and puts the token on the
nodes that accept it. -/
def advance (fuel fresh : Nat) (gr : Group κ) : List Stack × Nat :=
  let t := gr.token.symbol
  let bare := gr.tops.filter fun s => s.links.isEmpty
  let (tops, fresh) := closeAll g t fuel fresh (gr.tops.flatMap Stack.pushes) bare
  (tops.filter fun s => (g.action s.state t).read).foldl
    (fun (moved, fresh) s =>
      (moved ++ [.node fresh (g.goto s.state t)
        [(s, .leaf t gr.token.start gr.token.stop, 0)]], fresh + 1))
    ([], fresh)

/-- Moves all groups past their tokens. Ends with the tree if one is complete. -/
def moveGroups (fuel : Nat) : List (Group κ) → Progress κ → Except Tree (Progress κ)
  | [], p => .ok p
  | gr :: rest, p =>
      let (moved, fresh) := advance g fuel p.fresh gr
      match moved.findSome? (completed? g) with
      | some tree => .error tree
      | none =>
          let heads := moved.foldl (fun hs s => addHead sc ⟨gr.token.after, s⟩ hs) p.heads
          moveGroups fuel rest { p with heads, fresh }

/-- Reads the next token of every node at the foremost place. Gives the groups
and the farthest offset at which there was none. -/
def readTokens : List (Head κ) → List (Group κ) × Nat → List (Group κ) × Nat
  | [], found => found
  | h :: rest, (groups, farthest) =>
      match sc.next h.top.state h.cursor with
      | .error offset => readTokens rest (groups, max farthest offset)
      | .ok token => readTokens rest (addToGroup token h.top groups, farthest)

/-- Runs the parser from token to token. `inner` bounds the closings at one
token. -/
def run (inner : Nat) : Nat → Progress κ → Except Nat Tree
  | 0, p => .error p.farthest
  | fuel + 1, p =>
      match (p.heads.map fun h => sc.offset h.cursor).min? with
      | none => .error p.farthest
      | some place =>
          let (now, later) := p.heads.partition fun h => sc.offset h.cursor == place
          let (groups, farthest) := readTokens sc now ([], p.farthest)
          match moveGroups g sc inner groups { p with heads := later, farthest } with
          | .error tree => .ok tree
          | .ok p => run inner fuel p

/-- The tree of a text of a given length, or the offset where it stops making
sense. -/
def parse (length : Nat) (start : κ) : Except Nat Tree :=
  run g sc (64 * (length + 16)) (2 * length + 16)
    { heads := [⟨start, .node 0 g.initial []⟩], fresh := 1, farthest := 0 }

end Defs

end Grammar
end GoTags
