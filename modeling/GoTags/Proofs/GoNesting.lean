import GoTags.Proofs.GoValues

/-!
# Names outside braces

**Input.** The tree of a Go file.

**Algorithm.** A brace is opened and closed within one production, so the tokens of a tree
lead as deep into braces as its symbol alone. Items, specifications and names are reached
through productions without braces.

**Results.**
* `depth_tokens`: the tokens of a tree leave the depth as it is.
* `outside_itemTrees`, `sublist_outside_specs`: items and specifications stand outside braces.
* `picked_topLevel`: the names of an item are read from tokens outside braces, in order.
* `picked_itemsFrom`: so are the names of a file.
-/

namespace GoTags
namespace Go

open Grammar

section Depth

/-- The depth after a symbol: braces open and close a level, and no level is closed that
was not opened. -/
def turn (n : Nat) (s : Symbol) : Option Nat :=
  if s = Terminal.lbrace.code then some (n + 1)
  else if s = Terminal.rbrace.code then if n = 0 then none else some (n - 1)
  else some n

/-- The depth after some symbols. -/
def depth (n : Nat) (symbols : List Symbol) : Option Nat :=
  symbols.foldlM turn n

/-- Tokens whose braces are closed in the order in which they were opened. -/
def Balanced (ks : List Leaf) : Prop :=
  depth 0 (ks.map Prod.fst) = some 0

/-- The tokens at depth zero, from a depth on. -/
def outside : Nat → List Leaf → List Leaf
  | _, [] => []
  | n, k :: ks =>
      match turn n k.1 with
      | none => []
      | some m => if n = 0 ∧ m = 0 then k :: outside m ks else outside m ks

@[simp] theorem depth_nil (n : Nat) : depth n [] = some n := rfl

@[simp] theorem depth_cons (n : Nat) (s : Symbol) (symbols : List Symbol) :
    depth n (s :: symbols) = (turn n s).bind fun m => depth m symbols :=
  List.foldlM_cons

theorem depth_append (n : Nat) (xs ys : List Symbol) :
    depth n (xs ++ ys) = (depth n xs).bind fun m => depth m ys :=
  List.foldlM_append

theorem turn_of_ne {s : Symbol} (hl : s ≠ Terminal.lbrace.code) (hr : s ≠ Terminal.rbrace.code)
    (n : Nat) : turn n s = some n := by
  rw [turn, if_neg hl, if_neg hr]

theorem turn_add {n m : Nat} {s : Symbol} (h : turn n s = some m) (k : Nat) :
    turn (n + k) s = some (m + k) := by
  by_cases hl : s = Terminal.lbrace.code
  · rw [turn, if_pos hl, Option.some.injEq] at h ⊢
    omega
  · by_cases hr : s = Terminal.rbrace.code
    · rw [turn, if_neg hl, if_pos hr, Option.ite_none_left_eq_some, Option.some.injEq] at h ⊢
      omega
    · rw [turn_of_ne hl hr, Option.some.injEq] at h ⊢
      omega

/-- Starting deeper ends deeper. -/
theorem depth_add {n m : Nat} {symbols : List Symbol} (h : depth n symbols = some m) (k : Nat) :
    depth (n + k) symbols = some (m + k) := by
  induction symbols generalizing n with
  | nil =>
      cases h
      rfl
  | cons s symbols ih =>
      rw [depth_cons, Option.bind_eq_some_iff] at h ⊢
      obtain ⟨l, hl, h⟩ := h
      exact ⟨l + k, turn_add hl k, ih h⟩

theorem outside_sublist (n : Nat) (ks : List Leaf) : (outside n ks).Sublist ks := by
  induction ks generalizing n with
  | nil => exact .slnil
  | cons k ks ih =>
      rw [outside]
      split
      · exact List.nil_sublist _
      · split
        · exact (ih _).cons_cons k
        · exact (ih _).cons k

theorem outside_append {n m : Nat} {ks : List Leaf} (h : depth n (ks.map Prod.fst) = some m)
    (ls : List Leaf) : outside n (ks ++ ls) = outside n ks ++ outside m ls := by
  induction ks generalizing n with
  | nil =>
      cases h
      rfl
  | cons k ks ih =>
      rw [List.map_cons, depth_cons, Option.bind_eq_some_iff] at h
      obtain ⟨l, hl, h⟩ := h
      rw [List.cons_append, outside, outside, hl]
      dsimp only
      rw [ih h]
      split <;> rfl

/-- Tokens that are no braces are all at the same depth. -/
theorem outside_of_plain {ks : List Leaf} (h : ∀ k ∈ ks, turn 0 k.1 = some 0) :
    depth 0 (ks.map Prod.fst) = some 0 ∧ outside 0 ks = ks := by
  induction ks with
  | nil => exact ⟨rfl, rfl⟩
  | cons k ks ih =>
      rw [List.forall_mem_cons] at h
      obtain ⟨hdepth, houtside⟩ := ih h.2
      refine ⟨?_, ?_⟩
      · rw [List.map_cons, depth_cons, h.1]
        exact hdepth
      · rw [outside, h.1]
        dsimp only
        rw [if_pos ⟨rfl, rfl⟩, houtside]

/-- What stands before a token at depth zero is balanced. -/
theorem exists_of_mem_outside {n : Nat} {ks : List Leaf} {k : Leaf} (h : k ∈ outside n ks) :
    ∃ before after, ks = before ++ k :: after ∧ depth n (before.map Prod.fst) = some 0 := by
  induction ks generalizing n with
  | nil => cases h
  | cons l ks ih =>
      rw [outside] at h
      split at h
      · cases h
      · rename_i m hturn
        have hrest : k ∈ outside m ks → ∃ before after, l :: ks = before ++ k :: after ∧
            depth n (before.map Prod.fst) = some 0 := by
          intro h
          obtain ⟨before, after, rfl, hdepth⟩ := ih h
          refine ⟨l :: before, after, rfl, ?_⟩
          rw [List.map_cons, depth_cons, hturn]
          exact hdepth
        split at h
        · rename_i hzero
          rcases List.mem_cons.mp h with rfl | h
          · exact ⟨[], ks, rfl, by rw [hzero.1]; rfl⟩
          · exact hrest h
        · exact hrest h

/-- An opening brace is not closed by part of what stands in its braces. -/
theorem not_balanced_of_opening {before inside rest : List Leaf} {opening : Leaf}
    (hopening : opening.1 = Terminal.lbrace.code) (hinside : Balanced (inside ++ rest)) :
    ¬Balanced (before ++ opening :: inside) := by
  rw [Balanced, List.map_append, depth_append, Option.bind_eq_some_iff] at hinside
  obtain ⟨m, hm, -⟩ := hinside
  rw [Balanced, List.map_append, List.map_cons, depth_append, Option.bind_eq_some_iff]
  rintro ⟨n, -, hn⟩
  have hturn : turn n opening.1 = some (n + 1) := by
    rw [turn, if_pos hopening]
  have hdeep := depth_add hm (n + 1)
  rw [Nat.zero_add] at hdeep
  rw [depth_cons, hturn, Option.bind_some, hdeep, Option.some.injEq] at hn
  omega

end Depth

section Trees

/-- Categories through which items, specifications and names are reached. -/
def walkedCategories : List Category :=
  [.file, .sourceFile, .declaration, .statement, .simpleStatement,
   .functionDeclaration, .methodDeclaration, .typeDeclaration, .typeSpec, .typeAlias,
   .constDeclaration, .constSpec, .varDeclaration, .varSpec, .varSpecList]

/-- Whether items, specifications or names are reached through a symbol. -/
def isWalked (s : Symbol) : Bool :=
  isRepetition s || walkedCategories.any (isCat s)

/-- Productions close the braces that they open, and those that are walked have none. -/
theorem production_braces : ∀ p ∈ spec.productions, depth 0 p.body = some 0 ∧
    (isWalked p.head = true → ∀ s ∈ p.body, turn 0 s = some 0) := by
  decide +kernel

variable {R : Reading}

mutual

/-- The tokens of a tree lead as deep into braces as its symbol. -/
theorem depth_tokens : ∀ (t : Tree) {s : Symbol} {a b : Nat}, Derives tables R s a t b →
    ∀ n, depth n ((tokens t).map Prod.fst) = turn n s
  | .leaf _ _ _, s, a, b, h, n => by
      cases h
      rw [tokens, List.map_singleton, depth_cons]
      exact Option.bind_fun_some _
  | .node _ children, s, a, b, h, n => by
      cases h with
      | @node a b p trees hp hall =>
          -- the body closes what it opens, and the head is no token, so no brace
          have hbody := depth_add (production_braces p hp).1 n
          rw [Nat.zero_add] at hbody
          have hcount := of_decide_eq_true (List.all_eq_true.mp count_le_head p hp)
          have hturn : turn n p.head = some n := by
            refine turn_of_ne ?_ ?_ n
            · rintro hhead
              rw [hhead] at hcount
              exact absurd hcount (by decide)
            · rintro hhead
              rw [hhead] at hcount
              exact absurd hcount (by decide)
          rw [tokens, depth_tokensIn children hall, hbody, hturn]

theorem depth_tokensIn : ∀ (ts : List Tree) {symbols : List Symbol} {a b : Nat},
    DerivesAll tables R symbols a ts b →
      ∀ n, depth n ((tokens.tokensIn ts).map Prod.fst) = depth n symbols
  | [], _, _, _, h, n => by
      cases h
      rfl
  | t :: rest, _, _, _, h, n => by
      cases h with
      | cons h hrest =>
          rw [tokens.tokensIn, List.map_append, depth_append, depth_tokens t h n, depth_cons]
          exact congrArg _ (funext fun m => depth_tokensIn rest hrest m)

end

/-- Trees of symbols that are no braces stand side by side. -/
theorem outside_tokensIn {ts : List Tree} {symbols : List Symbol} {a b : Nat}
    (h : DerivesAll tables R symbols a ts b) (hsymbols : ∀ s ∈ symbols, turn 0 s = some 0) :
    outside 0 (tokens.tokensIn ts) = ts.flatMap fun t => outside 0 (tokens t) := by
  induction ts generalizing symbols a with
  | nil => rfl
  | cons t rest ih =>
      cases h with
      | cons h hrest =>
          rw [List.forall_mem_cons] at hsymbols
          have hdepth := (depth_tokens t h 0).trans hsymbols.1
          rw [tokens.tokensIn, outside_append hdepth, ih hrest hsymbols.2, List.flatMap_cons]

/-- What stands outside braces in the parts of a walked tree does so in the tree. -/
theorem outside_tokens_node {s : Symbol} {children : List Tree}
    (h : Derived tables R (.node s children)) (hs : isWalked s = true) :
    outside 0 (tokens (.node s children)) = children.flatMap fun t => outside 0 (tokens t) := by
  obtain ⟨s', a, b, h⟩ := h
  cases h with
  | node hp hall =>
      rw [tokens]
      exact outside_tokensIn hall ((production_braces _ hp).2 hs)

theorem isWalked_of_isOpen {s : Symbol} (h : isOpen s = true) : isWalked s = true := by
  have htransparent : ∀ c ∈ Category.all, c.isTransparent = true → c ∈ walkedCategories := by
    decide
  rw [isOpen, Bool.or_eq_true, List.any_eq_true] at h
  rw [isWalked, Bool.or_eq_true, List.any_eq_true]
  rcases h with h | ⟨c, hc, h⟩
  · exact Or.inl h
  · rw [Bool.and_eq_true] at h
    exact Or.inr ⟨c, htransparent c hc h.2, h.1⟩

mutual

/-- What stands outside braces in a file is what does so in its items. -/
theorem outside_itemTrees : ∀ t : Tree, Derived tables R t →
    ((itemTrees t).flatMap fun u => outside 0 (tokens u)) = outside 0 (tokens t)
  | .leaf s start stop, _ => by
      rw [itemTrees, List.flatMap_singleton]
  | .node s children, h => by
      rw [itemTrees]
      split
      · rename_i hopen
        rw [outside_tokens_node h (isWalked_of_isOpen hopen),
          outside_itemTreesIn children h.child]
      · rw [List.flatMap_singleton]

theorem outside_itemTreesIn : ∀ ts : List Tree, (∀ t ∈ ts, Derived tables R t) →
    ((itemTrees.itemTreesIn ts).flatMap fun u => outside 0 (tokens u)) =
      ts.flatMap fun t => outside 0 (tokens t)
  | [], _ => rfl
  | t :: rest, h => by
      rw [List.forall_mem_cons] at h
      rw [itemTrees.itemTreesIn, List.flatMap_append, outside_itemTrees t h.1,
        outside_itemTreesIn rest h.2, List.flatMap_cons]

end

mutual

/-- What stands outside braces in the specifications of a tree does so in the tree. -/
theorem sublist_outside_specs {wanted through : Category → Bool}
    (hthrough : ∀ c, through c = true → c ∈ walkedCategories) :
    ∀ t : Tree, Derived tables R t →
      ((specs wanted through t).flatMap fun u => outside 0 (tokens u)).Sublist
        (outside 0 (tokens t))
  | .leaf s start stop, _ => by
      rw [specs]
      exact List.nil_sublist _
  | .node s children, h => by
      rw [specs]
      split
      · rw [List.flatMap_singleton]
      · split
        · rename_i hpassed
          have hwalked : isWalked s = true := by
            rw [Bool.or_eq_true, List.any_eq_true] at hpassed
            rw [isWalked, Bool.or_eq_true, List.any_eq_true]
            rcases hpassed with hpassed | ⟨c, -, hpassed⟩
            · exact Or.inl hpassed
            · rw [Bool.and_eq_true] at hpassed
              exact Or.inr ⟨c, hthrough c hpassed.2, hpassed.1⟩
          rw [outside_tokens_node h hwalked]
          exact sublist_outside_specsIn hthrough children h.child
        · exact List.nil_sublist _

theorem sublist_outside_specsIn {wanted through : Category → Bool}
    (hthrough : ∀ c, through c = true → c ∈ walkedCategories) :
    ∀ ts : List Tree, (∀ t ∈ ts, Derived tables R t) →
      ((specs.specsIn wanted through ts).flatMap fun u => outside 0 (tokens u)).Sublist
        (ts.flatMap fun t => outside 0 (tokens t))
  | [], _ => .slnil
  | t :: rest, h => by
      rw [List.forall_mem_cons] at h
      rw [specs.specsIn, List.flatMap_append, List.flatMap_cons]
      exact (sublist_outside_specs hthrough t h.1).append
        (sublist_outside_specsIn hthrough rest h.2)

end

end Trees

section Names

/-- The names of some items, in order. -/
def identsIn (found : List TopLevel) : List Ident :=
  (found.flatMap TopLevel.idents).map Prod.snd

/-- Names that are read from some of the tokens given, in their order. Only names and
commas are taken. -/
def Picked (content : Bytes) (ks : List Leaf) (is : List Ident) : Prop :=
  ∃ taken : List Leaf, taken.Sublist ks ∧ is = taken.map (identOf content) ∧
    ∀ k ∈ taken, k.1 = Terminal.identifier.code ∨ k.1 = Terminal.comma.code

variable {content : Bytes}

theorem identsIn_append (found more : List TopLevel) :
    identsIn (found ++ more) = identsIn found ++ identsIn more := by
  rw [identsIn, List.flatMap_append, List.map_append]
  rfl

theorem picked_nil (ks : List Leaf) : Picked content ks [] :=
  ⟨[], List.nil_sublist ks, rfl, by simp⟩

theorem Picked.mono {ks ls : List Leaf} {is : List Ident} (h : Picked content ks is)
    (hks : ks.Sublist ls) : Picked content ls is := by
  obtain ⟨taken, htaken, his, hcodes⟩ := h
  exact ⟨taken, htaken.trans hks, his, hcodes⟩

theorem Picked.append {ks ls : List Leaf} {is js : List Ident} (h : Picked content ks is)
    (h' : Picked content ls js) : Picked content (ks ++ ls) (is ++ js) := by
  obtain ⟨taken, htaken, rfl, hcodes⟩ := h
  obtain ⟨taken', htaken', rfl, hcodes'⟩ := h'
  refine ⟨taken ++ taken', htaken.append htaken', List.map_append.symm, ?_⟩
  rw [List.forall_mem_append]
  exact ⟨hcodes, hcodes'⟩

theorem picked_flatMap {α : Type} {xs : List α} {f : α → List Leaf} {g : α → List Ident}
    (h : ∀ x ∈ xs, Picked content (f x) (g x)) :
    Picked content (xs.flatMap f) (xs.flatMap g) := by
  induction xs with
  | nil => exact picked_nil []
  | cons x xs ih =>
      rw [List.forall_mem_cons] at h
      rw [List.flatMap_cons, List.flatMap_cons]
      exact h.1.append (ih h.2)

theorem Derived.parsed {s : Symbol} {parts : List Tree}
    (h : Derived tables (Reads content) (.node s parts)) : Parsed content s (.node s parts) := by
  obtain ⟨s', a, b, h⟩ := h
  cases h with
  | node hp hall => exact ⟨a, b, .node hp hall⟩

/-- The declared name among the parts of a walked tree. -/
theorem picked_declaredName {s : Symbol} {parts : List Tree}
    (h : Derived tables (Reads content) (.node s parts)) (hs : isWalked s = true) :
    Picked content (outside 0 (tokens (.node s parts))) (declaredName content parts).toList := by
  cases hname : declaredName content parts with
  | none => exact picked_nil _
  | some i =>
      obtain ⟨t, ht, hsome⟩ := List.exists_of_findSome?_eq_some hname
      cases t with
      | node x children => cases hsome
      | leaf x start stop =>
          dsimp only at hsome
          split at hsome
          · rename_i hx
            rw [beq_iff_eq] at hx
            cases hsome
            have hleaf : outside 0 (tokens (.leaf x start stop)) = [(x, start, stop)] := by
              rw [tokens, hx]
              rfl
            refine ⟨[(x, start, stop)], ?_, rfl, by simp [hx]⟩
            rw [outside_tokens_node h hs, List.singleton_sublist, List.mem_flatMap]
            exact ⟨_, ht, by rw [hleaf]; exact List.mem_singleton_self _⟩
          · cases hsome

/-- Only names and commas stand in front of a specification. -/
theorem ValueSpec.code_of_mem_listed {v : ValueSpec} {k : Leaf} (hk : k ∈ v.listed) :
    k.1 = Terminal.identifier.code ∨ k.1 = Terminal.comma.code := by
  rcases List.mem_cons.mp hk with rfl | hk
  · exact Or.inl v.first_name
  · obtain ⟨x, hx, hk⟩ := List.mem_flatMap.mp hk
    obtain ⟨hcomma, hname⟩ := v.more_names x hx
    rcases List.mem_pair.mp hk with rfl | rfl
    · exact Or.inr hcomma
    · exact Or.inl hname

theorem ValueSpec.reported_sublist (v : ValueSpec) : v.reported.Sublist v.listed := by
  rw [reported]
  split
  · exact List.Sublist.refl _
  · refine List.Sublist.cons_cons _ ?_
    rw [List.map_eq_flatMap]
    exact List.Sublist.flatMap_right _ fun x _ => by simp

/-- The names of a specification of values stand in front of anything in braces. -/
theorem picked_specNames {constant : Bool} {t : Tree}
    (h : Parsed content (specCategory constant).code t) :
    Picked content (outside 0 (tokens t)) (specNames content constant (children t)) := by
  obtain ⟨v, hv⟩ := exists_valueSpec h
  have hplain : ∀ k ∈ v.listed, turn 0 k.1 = some 0 := by
    intro k hk
    rcases ValueSpec.code_of_mem_listed hk with h | h
    · rw [h]
      rfl
    · rw [h]
      rfl
  obtain ⟨hdepth, houtside⟩ := outside_of_plain hplain
  refine ⟨v.reported, ?_, hv.names_eq, ?_⟩
  · rw [hv.tokens_eq, ValueSpec.tokens, outside_append hdepth, houtside]
    exact v.reported_sublist.trans (List.sublist_append_left _ _)
  · exact fun k hk => ValueSpec.code_of_mem_listed (v.reported_sublist.subset hk)

/-- The names of the specifications of a walked tree. -/
theorem picked_specs {s : Symbol} {parts : List Tree}
    (h : Derived tables (Reads content) (.node s parts)) (hs : isWalked s = true)
    {wanted through : Category → Bool}
    (hthrough : ∀ c, through c = true → c ∈ walkedCategories) {f : Tree → List Ident}
    (hf : ∀ c children, wanted c = true →
      Derived tables (Reads content) (.node c.code children) →
        Picked content (outside 0 (tokens (.node c.code children))) (f (.node c.code children))) :
    Picked content (outside 0 (tokens (.node s parts)))
      ((parts.flatMap (specs wanted through)).flatMap f) := by
  have hspecs : Picked content
      ((specs.specsIn wanted through parts).flatMap fun u => outside 0 (tokens u))
      ((specs.specsIn wanted through parts).flatMap f) := by
    refine picked_flatMap ?_
    intro u hu
    obtain ⟨hderived, c, children, hc, rfl⟩ := derived_specsIn parts h.child u hu
    exact hf c children hc hderived
  rw [← specsIn_eq, outside_tokens_node h hs]
  exact hspecs.mono (sublist_outside_specsIn hthrough parts h.child)

/-- The names of the specifications of values of a walked tree. -/
theorem picked_values (constant : Bool) {s : Symbol} {parts : List Tree}
    (h : Derived tables (Reads content) (.node s parts)) (hs : isWalked s = true)
    {through : Category → Bool} (hthrough : ∀ c, through c = true → c ∈ walkedCategories) :
    Picked content (outside 0 (tokens (.node s parts)))
      (identsIn ((parts.flatMap (specs (· == specCategory constant) through)).map fun t =>
        .value (specNames content constant (children t)))) := by
  have hidents : ∀ us : List Tree,
      identsIn (us.map fun t => .value (specNames content constant (children t))) =
        us.flatMap fun t => specNames content constant (children t) := by
    intro us
    simp [identsIn, List.flatMap_map, List.map_flatMap, TopLevel.idents, Function.comp_def]
  rw [hidents]
  refine picked_specs h hs hthrough ?_
  intro c parts hc hderived
  rw [beq_iff_eq] at hc
  rw [hc] at hderived ⊢
  exact picked_specNames hderived.parsed

theorem identsIn_types (us : List Tree) :
    identsIn (us.filterMap fun t => (declaredName content (children t)).map TopLevel.type) =
      us.flatMap fun t => (declaredName content (children t)).toList := by
  induction us with
  | nil => rfl
  | cons t us ih =>
      rw [List.filterMap_cons, List.flatMap_cons, ← ih]
      cases declaredName content (children t) with
      | none => rfl
      | some i => rfl

/-- The names of the specifications of types of a walked tree. -/
theorem picked_types {s : Symbol} {parts : List Tree}
    (h : Derived tables (Reads content) (.node s parts)) (hs : isWalked s = true) :
    Picked content (outside 0 (tokens (.node s parts)))
      (identsIn ((parts.flatMap (specs (fun c => c == .typeSpec || c == .typeAlias)
        fun _ => false)).filterMap fun t =>
          (declaredName content (children t)).map TopLevel.type)) := by
  rw [identsIn_types]
  refine picked_specs h hs (by simp) ?_
  intro c parts hc hderived
  refine picked_declaredName hderived ?_
  rcases Bool.or_eq_true_iff.mp hc with hc | hc
  · rw [beq_iff_eq.mp hc]
    decide
  · rw [beq_iff_eq.mp hc]
    decide

/-- **The names of an item** are read from its tokens outside braces, in order. -/
theorem picked_topLevel {t : Tree} (h : Derived tables (Reads content) t) :
    Picked content (outside 0 (tokens t)) (identsIn (topLevel content t)) := by
  cases t with
  | leaf s start stop =>
      rw [topLevel]
      split_ifs <;> exact picked_nil _
  | node s parts =>
      have hwalked : ∀ c ∈ walkedCategories, isCat s c = true → isWalked s = true := by
        intro c hc hs
        rw [isWalked, Bool.or_eq_true, List.any_eq_true]
        exact Or.inr ⟨c, hc, hs⟩
      rw [topLevel]
      split
      · rename_i hs
        -- a function or a method
        have hs : isWalked s = true := by
          rcases Bool.or_eq_true_iff.mp hs with hs | hs
          · exact hwalked _ (by decide) hs
          · exact hwalked _ (by decide) hs
        have hname := picked_declaredName h hs
        cases hdeclared : declaredName content parts with
        | none => exact picked_nil _
        | some i =>
            rw [hdeclared] at hname
            exact hname
      · split
        · -- types
          rename_i hs
          exact picked_types h (hwalked _ (by decide) hs)
        · split
          · -- constants
            rename_i hs
            exact picked_values true h (hwalked _ (by decide) hs) (by simp)
          · split
            · -- variables, which may stand in a list of their own
              rename_i hs
              refine picked_values false h (hwalked _ (by decide) hs) ?_
              intro c hc
              rw [beq_iff_eq.mp hc]
              decide
            · split <;> exact picked_nil _

/-- The names of a file are read from its tokens outside braces, in order. -/
theorem picked_itemsFrom (start : Nat) {file : Tree} (h : Derived tables (Reads content) file) :
    Picked content (outside 0 (tokens file))
      (identsIn (itemsFrom content start (itemTrees file))) := by
  rw [← outside_itemTrees file h]
  have htrees := derived_itemTrees file h
  have hcomments : ∀ start stop, identsIn (commentItems content start stop) = [] := by
    intro start stop
    rw [identsIn, List.map_eq_nil_iff, List.flatMap_eq_nil_iff]
    intro item hitem
    rw [List.eq_of_mem_replicate hitem]
    rfl
  generalize itemTrees file = trees at htrees
  induction trees generalizing start with
  | nil =>
      rw [itemsFrom, hcomments]
      exact picked_nil _
  | cons t rest ih =>
      rw [List.forall_mem_cons] at htrees
      rw [itemsFrom, identsIn_append, identsIn_append, hcomments, List.nil_append,
        List.flatMap_cons]
      exact (picked_topLevel htrees.1).append (ih _ htrees.2)

end Names

end Go
end GoTags
