import GoTags.Grammar.Parse
import Mathlib.Tactic

/-!
# Trees that a parser gives

**Input.** The tables of a grammar and a way to read tokens.

**Algorithm.** The states on the shared stack say which productions are under
way. A link between two nodes carries a tree of the symbol that leads from the
state below to the state above; going down as many links as a production is along
therefore passes trees of the symbols that it has passed.

**Results.**
* `goto_valid`, `goto_leads`: what the state after a symbol says.
* `fit_of`: a start symbol that stands in no production is under way only from the
  beginning on.
* `ways_derive`: the ways down the stack spell the front of every production
  under way.
* `closeAll_sound`, `advance_sound`, `moveGroups_sound`: every step keeps the
  stack sound.
* `parse_derives`: a tree that the parser gives is derived by the productions, and
  its leaves are tokens that were read one after the other.
-/

namespace GoTags
namespace Grammar

section Derivations

/-- A token as it stands in a tree: its symbol, its start and its end. -/
abbrev Leaf := Symbol × Nat × Nat

/-- Which tokens may be read where: the offset before, the token, the offset after. -/
abbrev Reading := Nat → Leaf → Nat → Prop

mutual

/-- Trees of a symbol between two offsets. -/
inductive Derives (g : Tables) (R : Reading) : Symbol → Nat → Tree → Nat → Prop
  | leaf {a b : Nat} {s : Symbol} {start stop : Nat} (h : R a (s, start, stop) b) :
      Derives g R s a (.leaf s start stop) b
  | node {a b : Nat} {p : Production} {trees : List Tree} (hp : p ∈ g.spec.productions)
      (h : DerivesAll g R p.body a trees b) : Derives g R p.head a (.node p.head trees) b

/-- Trees of several symbols, one after the other, between two offsets. -/
inductive DerivesAll (g : Tables) (R : Reading) : List Symbol → Nat → List Tree → Nat → Prop
  | nil {a : Nat} : DerivesAll g R [] a [] a
  | cons {a b c : Nat} {s : Symbol} {rest : List Symbol} {t : Tree} {trees : List Tree}
      (h : Derives g R s a t b) (hrest : DerivesAll g R rest b trees c) :
      DerivesAll g R (s :: rest) a (t :: trees) c

end

variable {g : Tables} {R : Reading}

theorem DerivesAll.concat {a b c : Nat} {s : Symbol} {symbols : List Symbol} {t : Tree}
    {trees : List Tree} (h : DerivesAll g R symbols a trees b) (ht : Derives g R s b t c) :
    DerivesAll g R (symbols ++ [s]) a (trees ++ [t]) c := by
  induction trees generalizing symbols a with
  | nil =>
      cases h
      exact .cons ht .nil
  | cons t' trees ih =>
      cases h with
      | cons h hrest => exact .cons h (ih hrest)

theorem DerivesAll.exists_last {a c : Nat} {s : Symbol} {symbols : List Symbol} {trees : List Tree}
    (h : DerivesAll g R (symbols ++ [s]) a trees c) : ∃ t b, Derives g R s b t c := by
  induction symbols generalizing a trees with
  | nil =>
      cases h with
      | cons h hrest =>
          cases hrest
          exact ⟨_, _, h⟩
  | cons x symbols ih =>
      cases h with
      | cons h hrest => exact ih hrest

mutual

/-- A tree stays derived if more tokens may be read. -/
theorem Derives.mono {R' : Reading} (hR : ∀ {a k b}, R a k b → R' a k b) :
    ∀ {t : Tree} {s : Symbol} {a b : Nat}, Derives g R s a t b → Derives g R' s a t b
  | .leaf _ _ _, _, _, _, .leaf h => .leaf (hR h)
  | .node _ _, _, _, _, .node hp h => .node hp (h.mono hR)

theorem DerivesAll.mono {R' : Reading} (hR : ∀ {a k b}, R a k b → R' a k b) :
    ∀ {ts : List Tree} {symbols : List Symbol} {a b : Nat}, DerivesAll g R symbols a ts b →
      DerivesAll g R' symbols a ts b
  | [], _, _, _, .nil => .nil
  | _ :: _, _, _, _, .cons h hrest => .cons (h.mono hR) (hrest.mono hR)

end

end Derivations

section States

/-- An item is a production of the grammar, as far along as it says. -/
structure Item.Valid (g : Tables) (i : Item) : Prop where
  production : g.spec.productions[i.number]? = some i.production
  passed_le : i.passed ≤ i.production.body.length
  rest : i.rest = i.production.body.drop i.passed

/-- The productions that begin with a symbol are listed under it. -/
def Tables.Lists (g : Tables) : Prop :=
  ∀ x, ∀ n ∈ g.begun.getD x [], g.spec.productions[n.number]? = some n.production ∧
    n.production.body.head? = some x

/-- An item that a symbol leads to: it has just passed the symbol, and was one step
less far along before, unless the symbol is the first of its production. A
production of the start symbol is under way from the beginning. -/
def Item.Passed (g : Tables) (below : State) (x : Symbol) (i : Item) : Prop :=
  ∃ k, i.passed = k + 1 ∧ i.production.body[k]? = some x ∧
    (0 < k ∨ i.production.head = g.spec.start → ∃ j ∈ below, j.number = i.number ∧ j.passed = k)

/-- A state whose items are valid. -/
def State.Valid (g : Tables) (s : State) : Prop :=
  ∀ i ∈ s, i.Valid g

/-- A symbol leads from a state to another. -/
def State.Leads (g : Tables) (below : State) (x : Symbol) (above : State) : Prop :=
  ∀ i ∈ above, i.Passed g below x

/-- What the proofs below ask of tables: productions are listed where they belong, and
no state opens one of the start symbol. -/
structure Tables.Fit (g : Tables) : Prop where
  lists : g.Lists
  start_apart : ∀ s : State, s.Valid g → g.openings s g.spec.start = none

theorem lists_of (spec : Spec) : (Tables.of spec).Lists := by
  intro x n hn
  simp only [Tables.of, Array.getD_eq_getD_getElem?, Array.getElem?_ofFn] at hn
  split at hn
  · simp only [Option.getD_some, List.mem_filter, List.mem_map, beq_iff_eq] at hn
    obtain ⟨⟨⟨p, k⟩, hmem, rfl⟩, hhead⟩ := hn
    exact ⟨List.mem_zipIdx_iff_getElem?.mp hmem, hhead⟩
  · simp at hn

variable {g : Tables}

theorem Item.Valid.eq_of_number {i j : Item} (hi : i.Valid g) (hj : j.Valid g)
    (h : i.number = j.number) : i.production = j.production := by
  have hproduction := hi.production
  rw [h, hj.production] at hproduction
  exact (Option.some.inj hproduction).symm

theorem Item.Valid.passed_eq {i : Item} (hi : i.Valid g) (h : i.rest = []) :
    i.passed = i.production.body.length := by
  have hdrop := hi.rest
  rw [h, eq_comm, List.drop_eq_nil_iff] at hdrop
  exact Nat.le_antisymm hi.passed_le hdrop

theorem Item.Valid.mem {i : Item} (hi : i.Valid g) : i.production ∈ g.spec.productions :=
  List.mem_of_getElem? hi.production

/-- What holds of the items of a state and of one more, whatever may follow, holds
after the item is put in. -/
theorem State.forall_insert {P : Item → Prop} (hP : ∀ i f, P i → P { i with follow := f })
    {a : Item} (ha : P a) {s : State} (hs : ∀ i ∈ s, P i) : ∀ i ∈ State.insert a s, P i := by
  induction s with
  | nil =>
      intro i hi
      rw [State.insert, List.mem_singleton] at hi
      rwa [hi]
  | cons b rest ih =>
      rw [List.forall_mem_cons] at hs
      intro i hi
      rw [State.insert] at hi
      split at hi
      · rcases List.mem_cons.mp hi with rfl | hi
        · exact hP b _ hs.1
        · exact hs.2 i hi
      · split at hi
        · rcases List.mem_cons.mp hi with rfl | hi
          · exact ha
          · exact List.forall_mem_cons.mpr hs i hi
        · rcases List.mem_cons.mp hi with rfl | hi
          · exact hs.1
          · exact ih hs.2 i hi

theorem State.exists_of_same {s t : State} (h : State.same s t = true) {i : Item} (hi : i ∈ s) :
    ∃ j ∈ t, i.number = j.number ∧ i.passed = j.passed := by
  induction s generalizing t with
  | nil => cases hi
  | cons a s ih =>
      cases t with
      | nil => simp [State.same] at h
      | cons b t =>
          simp only [State.same, Item.sameCore, Bool.and_eq_true, beq_iff_eq] at h
          rcases List.mem_cons.mp hi with rfl | hi
          · exact ⟨b, List.mem_cons_self, h.1.1⟩
          · obtain ⟨j, hj, hij⟩ := ih h.2 hi
            exact ⟨j, List.mem_cons_of_mem b hj, hij⟩

theorem State.Leads.of_same {below s t : State} {x : Symbol} (h : State.same s t = true)
    (hs : s.Valid g) (ht : t.Valid g) (hleads : below.Leads g x t) : below.Leads g x s := by
  intro i hi
  obtain ⟨j, hj, hnumber, hpassed⟩ := State.exists_of_same h hi
  obtain ⟨k, hk, hbody, hbelow⟩ := hleads j hj
  rw [← (hs i hi).eq_of_number (ht j hj) hnumber] at hbody hbelow
  refine ⟨k, hpassed.trans hk, hbody, ?_⟩
  rw [hnumber]
  exact hbelow

theorem Item.Valid.follow {i : Item} (hi : i.Valid g) (f : TerminalSet) :
    Item.Valid g { i with follow := f } :=
  ⟨hi.production, hi.passed_le, hi.rest⟩

theorem initial_valid (hg : g.Fit) : State.Valid g g.initial := by
  unfold Tables.initial
  refine List.foldlRecOn (motive := State.Valid g) _ _ (by simp [State.Valid]) ?_
  intro s hs n hn
  rw [List.mem_filter, List.mem_flatten] at hn
  obtain ⟨⟨l, hl, hn⟩, -⟩ := hn
  obtain ⟨x, hx⟩ := List.mem_iff_getElem?.mp hl
  have hget : g.begun.getD x [] = l := by
    rw [Array.getD_eq_getD_getElem?, ← Array.getElem?_toList, hx]
    rfl
  have hproduction := (hg.lists x n (by rwa [hget])).1
  exact State.forall_insert (fun i f hi => hi.follow f) ⟨hproduction, Nat.zero_le _, rfl⟩ hs

/-- The items of the state after a symbol: those that expected the symbol, and
those that begin with it. -/
theorem goto_forall {P : Item → Prop} (hP : ∀ i f, P i → P { i with follow := f })
    {s : State} {x : Symbol}
    (hmoved : ∀ i ∈ s, ∀ rest, i.rest = x :: rest →
      P { i with passed := i.passed + 1, rest := rest })
    (hopened : ∀ n ∈ g.begun.getD x [], ∀ f, g.openings s n.production.head = some f →
      P ⟨n.number, n.production, 1, n.production.body.tail, f⟩) :
    ∀ i ∈ g.goto s x, P i := by
  unfold Tables.goto
  refine List.foldlRecOn (motive := fun next : State => ∀ i ∈ next, P i) _ _ ?_ ?_
  · refine List.foldlRecOn (motive := fun next : State => ∀ i ∈ next, P i) _ _ (by simp) ?_
    intro next hnext i hi
    split
    · exact hnext
    · rename_i y rest hrest
      split
      · rename_i hxy
        rw [beq_iff_eq] at hxy
        subst hxy
        exact State.forall_insert hP (hmoved i hi rest hrest) hnext
      · exact hnext
  · intro next hnext n hn
    split
    · exact hnext
    · rename_i f hopening
      exact State.forall_insert hP (hopened n hn f hopening) hnext

theorem goto_valid (hg : g.Fit) {s : State} (hs : s.Valid g) (x : Symbol) :
    State.Valid g (g.goto s x) := by
  refine goto_forall (fun i f hi => hi.follow f) ?_ ?_
  · intro i hi rest hrest
    have hdrop := (hs i hi).rest
    rw [hrest] at hdrop
    have hlength := congrArg List.length hdrop
    rw [List.length_cons, List.length_drop] at hlength
    refine ⟨(hs i hi).production, by dsimp only; omega, ?_⟩
    dsimp only
    rw [← List.drop_drop, ← hdrop, List.drop_one, List.tail_cons]
  · intro n hn f _
    obtain ⟨hproduction, hhead⟩ := hg.lists x n hn
    obtain ⟨rest, hbody⟩ := List.head?_eq_some_iff.mp hhead
    exact ⟨hproduction, by simp [hbody], by simp⟩

theorem goto_leads (hg : g.Fit) {s : State} (hs : s.Valid g) (x : Symbol) :
    s.Leads g x (g.goto s x) := by
  refine goto_forall (fun i f hi => hi) ?_ ?_
  · intro i hi rest hrest
    refine ⟨i.passed, rfl, ?_, fun _ => ⟨i, hi, rfl, rfl⟩⟩
    dsimp only
    rw [← List.head?_drop, ← (hs i hi).rest, hrest, List.head?_cons]
  · intro n hn f hopening
    refine ⟨0, rfl, ?_, ?_⟩
    · rw [← List.head?_eq_getElem?]
      exact (hg.lists x n hn).2
    · rintro (h | h)
      · exact absurd h (Nat.lt_irrefl 0)
      · dsimp only at h
        rw [h, hg.start_apart s hs] at hopening
        cases hopening

/-- A production is closed only when it is done. -/
theorem exists_of_mem_close {s : State} {t : Symbol} {p : Production}
    (h : p ∈ (g.action s t).close) : ∃ i ∈ s, i.rest = [] ∧ i.production = p := by
  have hdone : ∀ q ∈ Tables.highest
      ((s.filter fun i => i.rest.isEmpty && i.follow.has t).map Item.production),
      ∃ i ∈ s, i.rest = [] ∧ i.production = q := by
    intro q hq
    obtain ⟨i, hi, rfl⟩ := List.mem_map.mp (List.mem_filter.mp hq).1
    rw [List.mem_filter, Bool.and_eq_true, List.isEmpty_iff] at hi
    exact ⟨i, hi.1, hi.2.1, rfl⟩
  unfold Tables.action at h
  dsimp only at h
  generalize Tables.highest
    ((s.filter fun i => i.rest.isEmpty && i.follow.has t).map Item.production) = close at hdone h
  refine hdone p ?_
  split at h
  · exact h
  · unfold Tables.settleConflict at h
    cases close with
    | nil => exact h
    | cons q close =>
        dsimp only at h
        split_ifs at h <;> first | exact h | cases h

end States

section Fronts

/-- What a step keeps is kept until nothing changes. -/
theorem settle_induction {α : Type} [BEq α] {P : α → Prop} {step : α → α}
    (hstep : ∀ x, P x → P (step x)) (fuel : Nat) {x : α} (hx : P x) : P (settle step fuel x) := by
  induction fuel generalizing x with
  | zero => exact hx
  | succ fuel ih =>
      rw [settle]
      split
      · exact hx
      · exact ih (hstep x hx)

/-- A symbol that no edge leads to stands at the front of no other. -/
theorem frontsOf_getD_eq_none (g : Spec) {es : List Edge} {s x : Symbol}
    (hes : ∀ e ∈ es, e.front ≠ x) (hs : s ≠ x) : (frontsOf g es s).getD x none = none := by
  unfold frontsOf
  refine settle_induction (P := fun table : Array (Option Ahead) => table.getD x none = none)
    ?_ _ ?_
  · intro table htable
    refine List.foldlRecOn (motive := fun table : Array (Option Ahead) =>
      table.getD x none = none) _ _ htable ?_
    intro table htable e he
    split
    · exact htable
    · rw [Array.getD_eq_getD_getElem?, Array.getElem?_modify, if_neg (hes e he),
        ← Array.getD_eq_getD_getElem?]
      exact htable
  · rw [Array.getD_eq_getD_getElem?, Array.set!_eq_setIfInBounds,
      Array.getElem?_setIfInBounds_ne hs, Array.getElem?_replicate]
    split <;> rfl

theorem exists_of_mem_edges {g : Spec} {first : Array TerminalSet} {e : Edge}
    (he : e ∈ edges g first) : ∃ p ∈ g.productions, e.front ∈ p.body := by
  unfold edges at he
  rw [List.mem_eraseDups] at he
  obtain ⟨p, hp, he⟩ := List.mem_filterMap.mp he
  split at he
  · cases he
  · rename_i s rest hbody
    split at he
    · cases he
    · cases he
      exact ⟨p, hp, by rw [hbody]; exact List.mem_cons_self⟩

/-- A symbol that stands in no production is not opened by any item. -/
theorem opening_eq_none {spec : Spec} {x : Symbol} (hx : ∀ p ∈ spec.productions, x ∉ p.body)
    {i : Item} (hi : i.Valid (Tables.of spec)) : (Tables.of spec).opening x i = none := by
  unfold Tables.opening
  split
  · rfl
  · rename_i s rest hrest
    have hs : s ≠ x := by
      rintro rfl
      refine hx _ hi.mem (List.mem_of_mem_drop (i := i.passed) ?_)
      rw [← hi.rest, hrest]
      exact List.mem_cons_self
    have hfront : ((Tables.of spec).fronts.getD s #[]).getD x none = none := by
      simp only [Tables.of, Array.getD_eq_getD_getElem?, Array.getElem?_ofFn]
      split
      · dsimp only [Option.getD_some]
        split
        · rfl
        · rw [← Array.getD_eq_getD_getElem?]
          refine frontsOf_getD_eq_none spec ?_ hs
          intro e he heq
          obtain ⟨p, hp, hbody⟩ := exists_of_mem_edges he
          rw [heq] at hbody
          exact hx p hp hbody
      · rfl
    rw [hfront]

/-- The tables of a grammar whose start symbol stands in no production. -/
theorem fit_of {spec : Spec} (h : ∀ p ∈ spec.productions, spec.start ∉ p.body) :
    (Tables.of spec).Fit := by
  refine ⟨lists_of spec, ?_⟩
  intro s hs
  unfold Tables.openings
  refine List.foldlRecOn (motive := fun found : Option TerminalSet => found = none) _ _ rfl ?_
  rintro found rfl i hi
  have hopening : (Tables.of spec).opening (Tables.of spec).spec.start i = none :=
    opening_eq_none h (hs i hi)
  rw [hopening]

end Fronts

section Stacks

mutual

/-- A node of the stack at an offset: its state is valid, its links are sound, and it has
some unless it stands at the offset `o` where reading started. -/
inductive Stack.Sound (g : Tables) (R : Reading) (o : Nat) : Nat → Stack → Prop
  | node {b id : Nat} {state : State} {links : List (Stack × Tree × Int)}
      (hstate : state.Valid g) (hbase : links = [] → b = o)
      (hlinks : LinksSound g R o b state links) : Stack.Sound g R o b (.node id state links)

/-- Links of a node in a state: each goes down to a sound node at some offset, and
carries a tree from there of a symbol that leads to the state. -/
inductive LinksSound (g : Tables) (R : Reading) (o : Nat) :
    Nat → State → List (Stack × Tree × Int) → Prop
  | nil {b : Nat} {state : State} : LinksSound g R o b state []
  | cons {a b : Nat} {x : Symbol} {state : State} {below : Stack} {tree : Tree} {weight : Int}
      {links : List (Stack × Tree × Int)} (hbelow : Stack.Sound g R o a below)
      (htree : Derives g R x a tree b) (hleads : below.state.Leads g x state)
      (hlinks : LinksSound g R o b state links) :
      LinksSound g R o b state ((below, tree, weight) :: links)

end

/-- A sound link. -/
def LinkSound (g : Tables) (R : Reading) (o b : Nat) (state : State)
    (link : Stack × Tree × Int) : Prop :=
  ∃ a x, Stack.Sound g R o a link.1 ∧ Derives g R x a link.2.1 b ∧ link.1.state.Leads g x state

variable {g : Tables} {R : Reading} {o : Nat}

theorem linksSound_iff {b : Nat} {state : State} {links : List (Stack × Tree × Int)} :
    LinksSound g R o b state links ↔ ∀ link ∈ links, LinkSound g R o b state link := by
  induction links with
  | nil => exact ⟨fun _ => by simp, fun _ => .nil⟩
  | cons link links ih =>
      obtain ⟨below, tree, weight⟩ := link
      rw [List.forall_mem_cons, ← ih]
      constructor
      · intro h
        cases h with
        | cons hbelow htree hleads hlinks => exact ⟨⟨_, _, hbelow, htree, hleads⟩, hlinks⟩
      · rintro ⟨⟨a, x, hbelow, htree, hleads⟩, hlinks⟩
        exact .cons hbelow htree hleads hlinks

theorem sound_node_iff {b id : Nat} {state : State} {links : List (Stack × Tree × Int)} :
    Stack.Sound g R o b (.node id state links) ↔
      state.Valid g ∧ (links = [] → b = o) ∧ ∀ link ∈ links, LinkSound g R o b state link := by
  rw [← linksSound_iff]
  constructor
  · intro h
    cases h with
    | node hstate hbase hlinks => exact ⟨hstate, hbase, hlinks⟩
  · rintro ⟨hstate, hbase, hlinks⟩
    exact .node hstate hbase hlinks

theorem sound_iff {b : Nat} {s : Stack} :
    s.Sound g R o b ↔
      s.state.Valid g ∧ (s.links = [] → b = o) ∧
        ∀ link ∈ s.links, LinkSound g R o b s.state link := by
  cases s with
  | node id state links => exact sound_node_iff

theorem LinkSound.of_same {b : Nat} {s t : State} (h : State.same s t = true) (hs : s.Valid g)
    (ht : t.Valid g) {link : Stack × Tree × Int} (hlink : LinkSound g R o b t link) :
    LinkSound g R o b s link := by
  obtain ⟨a, x, hbelow, htree, hleads⟩ := hlink
  exact ⟨a, x, hbelow, htree, hleads.of_same h hs ht⟩

/-- A production of which nothing has been passed is under way only where reading started. -/
theorem eq_of_passed_zero {b : Nat} {s : Stack} (hs : s.Sound g R o b) {i : Item}
    (hi : i ∈ s.state) (hpassed : i.passed = 0) : b = o := by
  obtain ⟨-, hbase, hlinks⟩ := sound_iff.mp hs
  refine hbase (List.eq_nil_iff_forall_not_mem.mpr ?_)
  intro link hlink
  obtain ⟨a, x, -, -, hleads⟩ := hlinks link hlink
  obtain ⟨k, hk, -⟩ := hleads i hi
  omega

/-- The ways down from a node spell the front of every production under way. Those of the
start symbol go down to where reading started. -/
theorem ways_derive {n b : Nat} {s : Stack} (hs : s.Sound g R o b) {i : Item} (hi : i ∈ s.state)
    (hn : i.passed = n) {w : Way} (hw : w ∈ ways n s) :
    ∃ a, w.base.Sound g R o a ∧ DerivesAll g R (i.production.body.take n) a w.trees b ∧
      (i.production.head = g.spec.start → a = o) := by
  induction n generalizing b s i w with
  | zero =>
      rw [ways, List.mem_singleton] at hw
      subst hw
      exact ⟨b, hs, .nil, fun _ => eq_of_passed_zero hs hi hn⟩
  | succ k ih =>
      obtain ⟨hstate, -, hlinks⟩ := sound_iff.mp hs
      rw [ways, List.mem_flatMap] at hw
      obtain ⟨⟨below, tree, weight⟩, hlink, hw⟩ := hw
      obtain ⟨w', hw', rfl⟩ := List.mem_map.mp hw
      obtain ⟨a', x, hbelow, htree, hleads⟩ := hlinks _ hlink
      obtain ⟨k', hk', hbody, hitem⟩ := hleads i hi
      obtain rfl : k' = k := by omega
      have hfront : ∃ a, w'.base.Sound g R o a ∧
          DerivesAll g R (i.production.body.take k') a w'.trees a' ∧
            (i.production.head = g.spec.start → a = o) := by
        by_cases hbefore : 0 < k' ∨ i.production.head = g.spec.start
        · obtain ⟨j, hj, hnumber, hpassed⟩ := hitem hbefore
          have hproduction := ((sound_iff.mp hbelow).1 j hj).eq_of_number (hstate i hi) hnumber
          rw [← hproduction]
          exact ih hbelow hj hpassed hw'
        · obtain ⟨hpos, hstart⟩ := not_or.mp hbefore
          obtain rfl := Nat.eq_zero_of_not_pos hpos
          rw [ways, List.mem_singleton] at hw'
          subst hw'
          exact ⟨a', hbelow, .nil, fun h => absurd h hstart⟩
      obtain ⟨a, hbase, hall, horigin⟩ := hfront
      refine ⟨a, hbase, ?_, horigin⟩
      rw [List.take_add_one, hbody]
      exact hall.concat htree

/-- A production that is done at a node, and the trees of a way down, make a tree. -/
theorem ways_node {b : Nat} {s : Stack} (hs : s.Sound g R o b) {i : Item} (hi : i ∈ s.state)
    (hrest : i.rest = []) {w : Way} (hw : w ∈ ways i.production.body.length s) :
    ∃ a, w.base.Sound g R o a ∧
      Derives g R i.production.head a (.node i.production.head w.trees) b ∧
      (i.production.head = g.spec.start → a = o) := by
  have hvalid := (sound_iff.mp hs).1 i hi
  obtain ⟨a, hbase, hall, horigin⟩ := ways_derive hs hi (hvalid.passed_eq hrest) hw
  rw [List.take_length] at hall
  exact ⟨a, hbase, .node hvalid.mem hall, horigin⟩

end Stacks

section Closing

variable {g : Tables} {R : Reading} {o : Nat}

/-- A link about to be put on the stack, as a node of its own. -/
def Push.node (p : Push) : Stack :=
  .node 0 p.state [(p.below, p.tree, p.weight)]

theorem push_sound_iff {b : Nat} {p : Push} :
    p.node.Sound g R o b ↔
      p.state.Valid g ∧ LinkSound g R o b p.state (p.below, p.tree, p.weight) := by
  rw [Push.node, sound_node_iff, List.forall_mem_singleton]
  simp

/-- Closing a production puts sound links on the stack. -/
theorem closings_sound (hg : g.Fit) {b : Nat} {t : Symbol} {p : Push} (hp : p.node.Sound g R o b)
    {rule : Production} (hrule : rule ∈ (g.action p.state t).close) {q : Push}
    (hq : q ∈ closings g p rule) : q.node.Sound g R o b := by
  obtain ⟨i, hi, hrest, rfl⟩ := exists_of_mem_close hrule
  obtain ⟨w, hw, rfl⟩ := List.mem_map.mp hq
  obtain ⟨hstate, a, x, -, -, hleads⟩ := push_sound_iff.mp hp
  -- the link is the last step of a way through the production that is closed
  have hway : (⟨w.base, w.trees ++ [p.tree], w.weight + p.weight⟩ : Way) ∈
      ways i.production.body.length p.node := by
    obtain ⟨k, hk, -⟩ := hleads i hi
    rw [(hstate i hi).passed_eq hrest] at hk
    rw [hk, Nat.add_sub_cancel] at hw
    rw [hk, ways]
    simp only [Push.node, Stack.links, List.flatMap_cons, List.flatMap_nil, List.append_nil]
    exact List.mem_map.mpr ⟨w, hw, rfl⟩
  obtain ⟨a, hbase, hderives, -⟩ := ways_node hp hi hrest hway
  have hvalid := (sound_iff.mp hbase).1
  exact push_sound_iff.mpr ⟨goto_valid hg hvalid _, a, _, hbase, hderives, goto_leads hg hvalid _⟩

theorem mem_of_addLink {below : Stack} {tree : Tree} {weight : Int}
    {links links' : List (Stack × Tree × Int)} (h : addLink below tree weight links = some links')
    {link : Stack × Tree × Int} (hlink : link ∈ links') :
    link = (below, tree, weight) ∨ link ∈ links := by
  induction links generalizing links' with
  | nil =>
      rw [addLink] at h
      cases h
      exact Or.inl (List.mem_singleton.mp hlink)
  | cons first links ih =>
      obtain ⟨b, t, w⟩ := first
      rw [addLink] at h
      split at h
      · split at h
        · cases h
          rcases List.mem_cons.mp hlink with hlink | hlink
          · exact Or.inl hlink
          · exact Or.inr (List.mem_cons_of_mem _ hlink)
        · cases h
      · rw [Option.map_eq_some_iff] at h
        obtain ⟨rest, hrest, rfl⟩ := h
        rcases List.mem_cons.mp hlink with rfl | hlink
        · exact Or.inr List.mem_cons_self
        · exact (ih hrest hlink).imp id (List.mem_cons_of_mem _)

theorem ne_nil_of_addLink {below : Stack} {tree : Tree} {weight : Int}
    {links links' : List (Stack × Tree × Int)}
    (h : addLink below tree weight links = some links') : links' ≠ [] := by
  unfold addLink at h
  split at h
  · cases h
    simp
  · split_ifs at h
    · cases h
      simp
    · obtain ⟨rest, -, rfl⟩ := Option.map_eq_some_iff.mp h
      simp

theorem addPush_sound {b fresh : Nat} {p : Push} (hp : p.node.Sound g R o b)
    {tops tops' : List Stack} (htops : ∀ s ∈ tops, s.Sound g R o b) (h : addPush fresh p tops = some tops') :
    ∀ s ∈ tops', s.Sound g R o b := by
  obtain ⟨hstate, hlink⟩ := push_sound_iff.mp hp
  induction tops generalizing tops' with
  | nil =>
      rw [addPush] at h
      cases h
      rw [List.forall_mem_singleton]
      exact sound_node_iff.mpr ⟨hstate, by simp, by rwa [List.forall_mem_singleton]⟩
  | cons s rest ih =>
      rw [List.forall_mem_cons] at htops
      rw [addPush] at h
      split at h
      · rename_i hsame
        rw [Option.map_eq_some_iff] at h
        obtain ⟨links, hlinks, rfl⟩ := h
        obtain ⟨hvalid, -, hold⟩ := sound_iff.mp htops.1
        have hbase : links = [] → b = o := fun h => absurd h (ne_nil_of_addLink hlinks)
        refine List.forall_mem_cons.mpr ⟨sound_node_iff.mpr ⟨hvalid, hbase, ?_⟩, htops.2⟩
        intro link hmem
        rcases mem_of_addLink hlinks hmem with rfl | hmem
        · exact hlink.of_same hsame hvalid hstate
        · exact hold link hmem
      · rw [Option.map_eq_some_iff] at h
        obtain ⟨tops, hrest, rfl⟩ := h
        exact List.forall_mem_cons.mpr ⟨htops.1, ih htops.2 hrest⟩

/-- Closing all that can be closed keeps the stack sound. -/
theorem closeAll_sound (hg : g.Fit) {b : Nat} (t : Symbol) (fuel fresh : Nat)
    {pushes : List Push} (hpushes : ∀ p ∈ pushes, p.node.Sound g R o b) {tops : List Stack}
    (htops : ∀ s ∈ tops, s.Sound g R o b) :
    ∀ s ∈ (closeAll g t fuel fresh pushes tops).1, s.Sound g R o b := by
  induction fuel generalizing fresh pushes tops with
  | zero =>
      rw [closeAll]
      exact htops
  | succ fuel ih =>
      cases pushes with
      | nil =>
          rw [closeAll]
          · exact htops
          · simp
      | cons p rest =>
          rw [List.forall_mem_cons] at hpushes
          rw [closeAll]
          cases hadd : addPush fresh p tops with
          | none => exact ih fresh hpushes.2 htops
          | some tops' =>
              refine ih (fresh + 1) ?_ (addPush_sound hpushes.1 htops hadd)
              intro q hq
              rcases List.mem_append.mp hq with hq | hq
              · exact hpushes.2 q hq
              · obtain ⟨rule, hrule, hq⟩ := List.mem_flatMap.mp hq
                exact closings_sound hg hpushes.1 hrule hq

end Closing

section Running

variable {κ : Type}

/-- What is known of a scanner: the cursors that it is used at, and the tokens that
it reads there. -/
structure Scanner.Obeys (sc : Scanner κ) (Good : κ → Prop) (R : Reading) : Prop where
  good : ∀ {s c token}, Good c → sc.next s c = .ok token → Good token.after
  reads : ∀ {s c token}, Good c → sc.next s c = .ok token →
    R (sc.offset c) (token.symbol, token.start, token.stop) (sc.offset token.after)

/-- A waiting node is sound at the place where it waits. -/
structure Head.Sound (g : Tables) (sc : Scanner κ) (Good : κ → Prop) (R : Reading) (o : Nat)
    (h : Head κ) : Prop where
  good : Good h.cursor
  top : h.top.Sound g R o (sc.offset h.cursor)

/-- Nodes that wait at an offset for a token that can be read there. -/
structure Group.Sound (g : Tables) (sc : Scanner κ) (Good : κ → Prop) (R : Reading) (o a : Nat)
    (gr : Group κ) : Prop where
  good : Good gr.token.after
  reads : R a (gr.token.symbol, gr.token.start, gr.token.stop) (sc.offset gr.token.after)
  tops : ∀ s ∈ gr.tops, s.Sound g R o a

variable {g : Tables} {sc : Scanner κ} {Good : κ → Prop} {R : Reading} {o : Nat}

theorem addHead_sound {h : Head κ} (hh : h.Sound g sc Good R o) {heads : List (Head κ)}
    (hheads : ∀ k ∈ heads, k.Sound g sc Good R o) :
    ∀ k ∈ addHead sc h heads, k.Sound g sc Good R o := by
  induction heads with
  | nil =>
      rw [addHead, List.forall_mem_singleton]
      exact hh
  | cons k rest ih =>
      rw [List.forall_mem_cons] at hheads
      rw [addHead]
      split
      · rename_i hsame
        rw [Bool.and_eq_true, beq_iff_eq] at hsame
        obtain ⟨hoffset, hstate⟩ := hsame
        obtain ⟨hkvalid, hkbase, hklinks⟩ := sound_iff.mp hheads.1.top
        obtain ⟨hvalid, -, hlinks⟩ := sound_iff.mp hh.top
        refine List.forall_mem_cons.mpr ⟨⟨hheads.1.good, sound_node_iff.mpr ⟨hkvalid, ?_, ?_⟩⟩,
          hheads.2⟩
        · exact fun h => hkbase (List.append_eq_nil_iff.mp h).1
        intro link hlink
        rcases List.mem_append.mp hlink with hlink | hlink
        · exact hklinks link hlink
        · dsimp only
          rw [hoffset]
          exact (hlinks link hlink).of_same hstate hkvalid hvalid
      · exact List.forall_mem_cons.mpr ⟨hheads.1, ih hheads.2⟩

theorem addToGroup_sound {a : Nat} {token : Token κ} (hgood : Good token.after)
    (hreads : R a (token.symbol, token.start, token.stop) (sc.offset token.after))
    {top : Stack} (htop : top.Sound g R o a) {groups : List (Group κ)}
    (hgroups : ∀ gr ∈ groups, gr.Sound g sc Good R o a) :
    ∀ gr ∈ addToGroup token top groups, gr.Sound g sc Good R o a := by
  induction groups with
  | nil =>
      rw [addToGroup, List.forall_mem_singleton]
      exact ⟨hgood, hreads, by rwa [List.forall_mem_singleton]⟩
  | cons gr rest ih =>
      rw [List.forall_mem_cons] at hgroups
      rw [addToGroup]
      split
      · refine List.forall_mem_cons.mpr ⟨⟨hgroups.1.good, hgroups.1.reads, ?_⟩, hgroups.2⟩
        rw [List.forall_mem_append, List.forall_mem_singleton]
        exact ⟨hgroups.1.tops, htop⟩
      · exact List.forall_mem_cons.mpr ⟨hgroups.1, ih hgroups.2⟩

theorem readTokens_sound (hsc : sc.Obeys Good R) {a : Nat} {heads : List (Head κ)}
    (hheads : ∀ h ∈ heads, h.Sound g sc Good R o ∧ sc.offset h.cursor = a)
    {groups : List (Group κ)} (hgroups : ∀ gr ∈ groups, gr.Sound g sc Good R o a) (farthest : Nat) :
    ∀ gr ∈ (readTokens sc heads (groups, farthest)).1, gr.Sound g sc Good R o a := by
  induction heads generalizing groups farthest with
  | nil =>
      rw [readTokens]
      exact hgroups
  | cons h rest ih =>
      rw [List.forall_mem_cons] at hheads
      obtain ⟨⟨hh, hoffset⟩, hrest⟩ := hheads
      rw [readTokens]
      cases hnext : sc.next h.top.state h.cursor with
      | error offset => exact ih hrest hgroups _
      | ok token =>
          have hreads := hsc.reads hh.good hnext
          have htop := hh.top
          rw [hoffset] at hreads htop
          exact ih hrest (addToGroup_sound (hsc.good hh.good hnext) hreads htop hgroups) _

/-- The nodes after a token are sound where the token ends. -/
theorem advance_sound (hg : g.Fit) {a : Nat} {gr : Group κ} (hgr : gr.Sound g sc Good R o a)
    (fuel fresh : Nat) :
    ∀ s ∈ (advance g fuel fresh gr).1, s.Sound g R o (sc.offset gr.token.after) := by
  have hpushes : ∀ p ∈ gr.tops.flatMap Stack.pushes, p.node.Sound g R o a := by
    intro p hp
    obtain ⟨s, hs, hp⟩ := List.mem_flatMap.mp hp
    obtain ⟨link, hlink, rfl⟩ := List.mem_map.mp hp
    obtain ⟨hvalid, -, hlinks⟩ := sound_iff.mp (hgr.tops s hs)
    exact push_sound_iff.mpr ⟨hvalid, hlinks link hlink⟩
  have hbare : ∀ s ∈ gr.tops.filter fun s => s.links.isEmpty, s.Sound g R o a :=
    fun s hs => hgr.tops s (List.mem_filter.mp hs).1
  have hclosed := closeAll_sound hg gr.token.symbol fuel fresh hpushes hbare
  unfold advance
  dsimp only
  generalize closeAll g gr.token.symbol fuel fresh (gr.tops.flatMap Stack.pushes)
    (gr.tops.filter fun s => s.links.isEmpty) = closed at hclosed
  obtain ⟨tops, fresh⟩ := closed
  refine List.foldlRecOn (motive := fun moved : List Stack × Nat =>
    ∀ s ∈ moved.1, s.Sound g R o (sc.offset gr.token.after)) _ _ (by simp) ?_
  rintro ⟨moved, fresh⟩ hmoved s hs
  have hsound := hclosed s (List.mem_filter.mp hs).1
  have hvalid := (sound_iff.mp hsound).1
  rw [List.forall_mem_append, List.forall_mem_singleton]
  refine ⟨hmoved, sound_node_iff.mpr ⟨goto_valid hg hvalid _, by simp, ?_⟩⟩
  rw [List.forall_mem_singleton]
  exact ⟨a, gr.token.symbol, hsound, .leaf hgr.reads, goto_leads hg hvalid _⟩

theorem derives_of_completed {b : Nat} {s : Stack} (hs : s.Sound g R o b) {tree : Tree}
    (h : completed? g s = some tree) : Derives g R g.spec.start o tree b := by
  obtain ⟨i, hi, h⟩ := List.exists_of_findSome?_eq_some h
  split at h
  · rename_i hdone
    rw [Bool.and_eq_true, List.isEmpty_iff, beq_iff_eq] at hdone
    obtain ⟨hrest, hhead⟩ := hdone
    rw [Option.map_eq_some_iff] at h
    obtain ⟨w, hw, rfl⟩ := h
    obtain ⟨a, -, hderives, horigin⟩ := ways_node hs hi hrest (List.mem_of_head? hw)
    rw [horigin hhead] at hderives
    rwa [← hhead]
  · cases h

/-- What moving past tokens comes to: a tree that is derived, or sound nodes that
wait. -/
theorem moveGroups_sound (hg : g.Fit) (fuel : Nat) {a : Nat} {groups : List (Group κ)}
    (hgroups : ∀ gr ∈ groups, gr.Sound g sc Good R o a) {p : Progress κ}
    (hp : ∀ h ∈ p.heads, h.Sound g sc Good R o) :
    match moveGroups g sc fuel groups p with
    | .error tree => ∃ b, Derives g R g.spec.start o tree b
    | .ok p' => ∀ h ∈ p'.heads, h.Sound g sc Good R o := by
  induction groups generalizing p with
  | nil => exact hp
  | cons gr rest ih =>
      rw [List.forall_mem_cons] at hgroups
      have hmoved := advance_sound hg hgroups.1 fuel p.fresh
      rw [moveGroups]
      generalize advance g fuel p.fresh gr = advanced at hmoved
      obtain ⟨moved, fresh⟩ := advanced
      dsimp only
      cases hdone : moved.findSome? (completed? g) with
      | some tree =>
          obtain ⟨s, hs, hcompleted⟩ := List.exists_of_findSome?_eq_some hdone
          exact ⟨_, derives_of_completed (hmoved s hs) hcompleted⟩
      | none =>
          refine ih hgroups.2 ?_
          refine List.foldlRecOn (motive := fun heads : List (Head κ) =>
            ∀ h ∈ heads, h.Sound g sc Good R o) _ _ hp ?_
          intro heads hheads s hs
          exact addHead_sound ⟨hgroups.1.good, hmoved s hs⟩ hheads

theorem run_derives (hg : g.Fit) (hsc : sc.Obeys Good R) {inner fuel : Nat} {p : Progress κ}
    (hp : ∀ h ∈ p.heads, h.Sound g sc Good R o) {tree : Tree}
    (h : run g sc inner fuel p = .ok tree) : ∃ b, Derives g R g.spec.start o tree b := by
  induction fuel generalizing p with
  | zero =>
      rw [run] at h
      cases h
  | succ fuel ih =>
      rw [run] at h
      cases hplace : (p.heads.map fun h => sc.offset h.cursor).min? with
      | none =>
          rw [hplace] at h
          cases h
      | some place =>
          rw [hplace] at h
          dsimp only at h
          rw [List.partition_eq_filter_filter] at h
          dsimp only at h
          have hnow : ∀ h ∈ p.heads.filter fun h => sc.offset h.cursor == place,
              h.Sound g sc Good R o ∧ sc.offset h.cursor = place := by
            intro h hh
            rw [List.mem_filter, beq_iff_eq] at hh
            exact ⟨hp h hh.1, hh.2⟩
          have hgroups : ∀ gr ∈ (readTokens sc
              (p.heads.filter fun h => sc.offset h.cursor == place) ([], p.farthest)).1,
              gr.Sound g sc Good R o place :=
            readTokens_sound hsc hnow (by simp) p.farthest
          generalize readTokens sc (p.heads.filter fun h => sc.offset h.cursor == place)
            ([], p.farthest) = read at hgroups h
          obtain ⟨groups, farthest⟩ := read
          have hmoved := moveGroups_sound hg inner hgroups
            (p := { p with
              heads := p.heads.filter (not ∘ fun h => sc.offset h.cursor == place)
              farthest := farthest })
            (fun h hh => hp h (List.mem_filter.mp hh).1)
          dsimp only at h hmoved
          split at h
          · rename_i tree' hmove
            cases h
            rw [hmove] at hmoved
            exact hmoved
          · rename_i p' hmove
            rw [hmove] at hmoved
            exact ih hmoved h

/-- **Parsed trees are derived.** A tree that the parser gives is one of the start
symbol, made of productions and of tokens that were read one after the other, from
the start on. -/
theorem parse_derives (hg : g.Fit) (hsc : sc.Obeys Good R) {length : Nat} {start : κ}
    (hstart : Good start) {tree : Tree} (h : parse g sc length start = .ok tree) :
    ∃ b, Derives g R g.spec.start (sc.offset start) tree b := by
  refine run_derives hg hsc ?_ h
  rw [List.forall_mem_singleton]
  exact ⟨hstart, sound_node_iff.mpr ⟨initial_valid hg, fun _ => rfl, by simp⟩⟩

end Running

end Grammar
end GoTags
