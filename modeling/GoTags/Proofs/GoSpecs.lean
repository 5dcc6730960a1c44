import GoTags.Proofs.GoItems

/-!
# Specifications of values

A specification of constants or variables starts with names that have commas between
them, and what follows does not start with a comma.

**Input.** A tree of a specification, read in the bytes of a Go file.

**Algorithm.** The productions of a specification start with a name. The other names, each
with a comma before it, are a repetition, which is formed from itself and one more row.

**Results.**
* `exists_unrolls`: a repetition is the rows that it was formed from.
* `shaped_of_mem_productions`: what the productions of the grammar look like.
* `Parsed.first_token`: nothing inside an item starts with a comma.
* `exists_valueSpec`: the names of a specification, and what is reported for it.
-/

namespace GoTags
namespace Go

open Grammar

section Trees

/-- A tree of a symbol that is read somewhere in a content. -/
def Parsed (content : Bytes) (s : Symbol) (t : Tree) : Prop :=
  ∃ a b, Derives tables (Reads content) s a t b

variable {content : Bytes} {s : Symbol} {t : Tree}

theorem forall₂_parsed {symbols : List Symbol} {trees : List Tree} {a b : Nat}
    (h : DerivesAll tables (Reads content) symbols a trees b) :
    List.Forall₂ (Parsed content) symbols trees := by
  induction trees generalizing symbols a with
  | nil =>
      cases h
      exact .nil
  | cons t trees ih =>
      cases h with
      | cons h hrest => exact .cons ⟨_, _, h⟩ (ih hrest)

theorem forall₂_pair_iff {x y : Symbol} {ts : List Tree} :
    List.Forall₂ (Parsed content) [x, y] ts ↔
      ∃ t u, ts = [t, u] ∧ Parsed content x t ∧ Parsed content y u := by
  constructor
  · rintro (_ | ⟨ht, _ | ⟨hu, _ | _⟩⟩)
    exact ⟨_, _, rfl, ht, hu⟩
  · rintro ⟨t, u, rfl, ht, hu⟩
    exact .cons ht (.cons hu .nil)

/-- The tokens of a tree are read in the content. -/
theorem Parsed.reads (h : Parsed content s t) {k : Leaf} (hk : k ∈ tokens t) :
    ∃ a b, Reads content a k b := by
  obtain ⟨a, b, h⟩ := h
  have hclosed : Closed tables fun _ => True := fun _ _ _ _ _ => trivial
  exact (tokens_of_derives hclosed t h trivial k hk).2

/-- The tree of a kind of token is a token. -/
theorem Parsed.exists_leaf {x : Terminal} (h : Parsed content x.code t) :
    ∃ start stop, t = .leaf x.code start stop := by
  obtain ⟨a, b, h⟩ := h
  generalize hs : x.code = s at h
  cases h with
  | leaf => exact ⟨_, _, rfl⟩
  | node hp =>
      have hcount := of_decide_eq_true (List.all_eq_true.mp count_le_head _ hp)
      have hlt := Terminal.code_lt x
      rw [hs] at hlt
      exact absurd hlt (Nat.not_lt.mpr hcount)

/-- The tree of any other symbol is formed by a production. -/
theorem Parsed.exists_node (h : Parsed content s t) (hs : Terminal.count ≤ s) :
    ∃ p ∈ spec.productions, p.head = s ∧
      ∃ trees, t = .node s trees ∧ List.Forall₂ (Parsed content) p.body trees := by
  obtain ⟨a, b, h⟩ := h
  cases h with
  | leaf h =>
      obtain ⟨-, -, x, rfl, -⟩ := h
      exact absurd (Terminal.code_lt x) (Nat.not_lt.mpr hs)
  | node hp hall => exact ⟨_, hp, rfl, _, rfl, forall₂_parsed hall⟩

theorem count_le_category (c : Category) : Terminal.count ≤ c.code :=
  Nat.le_add_right _ _

theorem tokensIn_eq (ts : List Tree) : tokens.tokensIn ts = ts.flatMap tokens := by
  induction ts with
  | nil => rfl
  | cons t ts ih => rw [tokens.tokensIn, ih, List.flatMap_cons]

theorem specsIn_eq (wanted through : Category → Bool) (ts : List Tree) :
    specs.specsIn wanted through ts = ts.flatMap (specs wanted through) := by
  induction ts with
  | nil => rfl
  | cons t ts ih => rw [specs.specsIn, ih, List.flatMap_cons]

end Trees

section Repetitions

/-- A symbol that is formed from one of several rows, or from itself and then one of
them. -/
def Repeated (rows : List (List Symbol)) (s : Symbol) : Bool :=
  isRepetition s && spec.productions.all fun p =>
    p.head != s || rows.any fun row => p.body == row || p.body == s :: row

/-- The rows that a tree of a repetition was formed from. -/
inductive Unrolls (s : Symbol) : Tree → List (List Tree) → Prop
  | one (row : List Tree) : Unrolls s (.node s row) [row]
  | more {t : Tree} {rows : List (List Tree)} (row : List Tree) (h : Unrolls s t rows) :
      Unrolls s (.node s (t :: row)) (rows ++ [row])

variable {content : Bytes} {s : Symbol} {rows : List (List Symbol)}

theorem isRepetition_of_repeated (hs : Repeated rows s = true) : isRepetition s = true :=
  (Bool.and_eq_true_iff.mp hs).1

theorem count_le_of_repeated (hs : Repeated rows s = true) : Terminal.count ≤ s :=
  Nat.le_trans (Nat.le_add_right _ _) (of_decide_eq_true (isRepetition_of_repeated hs))

/-- A repetition is the rows that it was formed from. -/
theorem exists_unrolls (hs : Repeated rows s = true) : ∀ {t : Tree}, Parsed content s t →
    ∃ found, Unrolls s t found ∧
      ∀ ts ∈ found, ∃ row ∈ rows, List.Forall₂ (Parsed content) row ts
  | t, h => by
      have hproductions := (Bool.and_eq_true_iff.mp hs).2
      obtain ⟨p, hp, hhead, trees, rfl, hall⟩ := h.exists_node (count_le_of_repeated hs)
      have hbody := List.all_eq_true.mp hproductions p hp
      rw [hhead, bne_self_eq_false, Bool.false_or, List.any_eq_true] at hbody
      obtain ⟨row, hrow, hbody⟩ := hbody
      rw [Bool.or_eq_true, beq_iff_eq, beq_iff_eq] at hbody
      rcases hbody with hbody | hbody
      · rw [hbody] at hall
        exact ⟨[trees], .one trees, by simpa using ⟨row, hrow, hall⟩⟩
      · rw [hbody, List.forall₂_cons_left_iff] at hall
        obtain ⟨t, ts, ht, hts, rfl⟩ := hall
        obtain ⟨found, hfound, hrows⟩ := exists_unrolls hs ht
        refine ⟨found ++ [ts], .more ts hfound, ?_⟩
        rw [List.forall_mem_append, List.forall_mem_singleton]
        exact ⟨hrows, row, hrow, hts⟩
termination_by t => sizeOf t

theorem Unrolls.tokens_eq {t : Tree} {found : List (List Tree)} (h : Unrolls s t found) :
    tokens t = found.flatten.flatMap tokens := by
  induction h with
  | one row => simp [tokens, tokensIn_eq]
  | more row _ ih => simp [tokens, tokensIn_eq, ih]

/-- A repetition is none of the categories. -/
theorem isCat_of_isRepetition (hs : isRepetition s = true) (f : Category → Bool) :
    (Category.all.any fun c => isCat s c && f c) = false := by
  have hlt : ∀ c ∈ Category.all, c.code < Terminal.count + Category.all.length := by decide
  have hle := of_decide_eq_true hs
  rw [List.any_eq_false]
  intro c hc
  have hne : s ≠ c.code := by
    rintro rfl
    exact absurd (hlt c hc) (Nat.not_lt.mpr hle)
  simp [isCat, hne]

theorem Unrolls.specs_eq {wanted through : Category → Bool} (hs : isRepetition s = true) {t : Tree}
    {found : List (List Tree)} (h : Unrolls s t found) :
    specs wanted through t = found.flatten.flatMap (specs wanted through) := by
  induction h with
  | one row => simp [specs, specsIn_eq, hs, isCat_of_isRepetition hs]
  | more row _ ih => simp [specs, specsIn_eq, hs, isCat_of_isRepetition hs, ih]

end Repetitions

section Productions

/-- A symbol of something inside an item of a file, but not a comma or a repetition. -/
def isInner (s : Symbol) : Bool :=
  s != Terminal.comma.code && !isRepetition s && !isCat s .file && !isCat s .sourceFile

/-- The repetition of a comma and a name. -/
def repeatsNames (s : Symbol) : Bool :=
  Repeated [[Terminal.comma.code, Terminal.identifier.code]] s

/-- Symbols that follow the names of a specification. -/
def followNames (symbols : List Symbol) : Bool :=
  symbols.all fun s => s != Terminal.identifier.code && isInner s

/-- A name, perhaps more names, and then other things. -/
def startsWithNames : List Symbol → Bool
  | [] => false
  | x :: rest =>
      x == Terminal.identifier.code &&
        (followNames rest || rest.head?.any repeatsNames && followNames rest.tail)

/-- The category of specifications of constants, or of variables. -/
def specCategory : Bool → Category
  | true => .constSpec
  | false => .varSpec

/-- What ends a specification in a group. -/
def terminators : List Terminal :=
  [.newline, .semicolon, .nul]

/-- Specifications in parentheses, each with a terminator. -/
def isGroup (constant : Bool) : List Symbol → Bool
  | [x, z] => x == Terminal.lparen.code && z == Terminal.rparen.code
  | [x, y, z] => x == Terminal.lparen.code && z == Terminal.rparen.code &&
      Repeated (terminators.map fun e => [(specCategory constant).code, e.code]) y
  | _ => false

/-- What the proofs below ask of a production. -/
@[mk_iff]
structure Shaped (p : Production) : Prop where
  inner : isInner p.head = true → p.body.head?.any isInner = true
  constSpec : p.head = Category.constSpec.code → startsWithNames p.body = true
  varSpec : p.head = Category.varSpec.code → startsWithNames p.body = true
  constDeclaration : p.head = Category.constDeclaration.code →
    p.body.head? = some Terminal.kwConst.code ∧
      (p.body.tail = [Category.constSpec.code] ∨ isGroup true p.body.tail = true)
  varDeclaration : p.head = Category.varDeclaration.code →
    p.body = [Terminal.kwVar.code, Category.varSpec.code] ∨
      p.body = [Terminal.kwVar.code, Category.varSpecList.code]
  varSpecList : p.head = Category.varSpecList.code → isGroup false p.body = true

instance (p : Production) : Decidable (Shaped p) :=
  decidable_of_iff' _ (shaped_iff p)

theorem shaped_of_mem_productions : ∀ p ∈ spec.productions, Shaped p := by
  decide +kernel

end Productions

section Specifications

/-- A specification of constants or variables as its tokens stand in a source: a name, more
names with a comma before each, and what follows, which does not start with a comma. -/
structure ValueSpec where
  constant : Bool
  first : Leaf
  more : List (Leaf × Leaf)
  rest : List Leaf
  first_name : first.1 = Terminal.identifier.code
  more_names : ∀ x ∈ more, x.1.1 = Terminal.comma.code ∧ x.2.1 = Terminal.identifier.code
  rest_apart : ∀ k ∈ rest.head?, k.1 ≠ Terminal.comma.code

namespace ValueSpec

/-- The names that a specification declares. -/
def names (v : ValueSpec) : List Leaf :=
  v.first :: v.more.map Prod.snd

/-- The names with the commas between them. -/
def listed (v : ValueSpec) : List Leaf :=
  v.first :: v.more.flatMap fun x => [x.1, x.2]

/-- The tokens of a specification. -/
def tokens (v : ValueSpec) : List Leaf :=
  v.listed ++ v.rest

/-- What is reported for a specification: the names, but those of constants with the commas
between them. -/
def reported (v : ValueSpec) : List Leaf :=
  if v.constant then v.listed else v.names

theorem reported_eq_names_iff (v : ValueSpec) :
    v.reported = v.names ↔ (v.constant = true → v.more = []) := by
  have hlength : v.listed.length = v.names.length + v.more.length := by
    simp [listed, names]
    omega
  cases hconstant : v.constant with
  | false => simp [reported, hconstant]
  | true =>
      rw [reported, if_pos hconstant]
      constructor
      · intro h _
        rw [h] at hlength
        exact List.length_eq_zero_iff.mp (by omega)
      · intro h
        rw [listed, names, h rfl]
        rfl

end ValueSpec

/-- The name that a token stands for. -/
def identOf (content : Bytes) (k : Leaf) : Ident :=
  identAt content k.2.1 k.2.2

variable {content : Bytes}

/-- The first token inside an item is not a comma. -/
theorem Parsed.first_token : ∀ {s : Symbol} {t : Tree}, isInner s = true → Parsed content s t →
    ∃ k rest, tokens t = k :: rest ∧ k.1 ≠ Terminal.comma.code
  | s, .leaf x start stop, hs, ⟨a, b, h⟩ => by
      cases h
      refine ⟨_, [], rfl, ?_⟩
      rintro rfl
      simp [isInner] at hs
  | s, .node x trees, hs, ⟨a, b, h⟩ => by
      cases h with
      | node hp hall =>
          obtain ⟨y, hy, hinner⟩ :=
            (Option.any_eq_true _ _).mp ((shaped_of_mem_productions _ hp).inner hs)
          obtain ⟨symbols, hbody⟩ := List.head?_eq_some_iff.mp hy
          have hparts := forall₂_parsed hall
          rw [hbody, List.forall₂_cons_left_iff] at hparts
          obtain ⟨t, ts, ht, -, rfl⟩ := hparts
          obtain ⟨k, rest, htokens, hk⟩ := Parsed.first_token hinner ht
          refine ⟨k, rest ++ ts.flatMap tokens, ?_, hk⟩
          rw [tokens, tokensIn_eq, List.flatMap_cons, htokens, List.cons_append]

theorem specNames_append (separators : Bool) (ts us : List Tree) :
    specNames content separators (ts ++ us) =
      specNames content separators ts ++ specNames content separators us :=
  List.flatMap_append

theorem specNames_of_inner {s : Symbol} {t : Tree} (separators : Bool)
    (hname : s ≠ Terminal.identifier.code) (hs : isInner s = true) (h : Parsed content s t) :
    specNames content separators [t] = [] := by
  obtain ⟨a, b, h⟩ := h
  have hrepetition : isRepetition s = false := by
    simp only [isInner, Bool.and_eq_true, Bool.not_eq_true'] at hs
    exact hs.1.1.2
  cases h with
  | leaf => simp [specNames, hname]
  | node => simp [specNames, hrepetition]

/-- What follows the names of a specification holds no names. -/
theorem specNames_of_followNames {symbols : List Symbol} {ts : List Tree} (separators : Bool)
    (hsymbols : followNames symbols = true) (h : List.Forall₂ (Parsed content) symbols ts) :
    specNames content separators ts = [] := by
  induction h with
  | nil => rfl
  | @cons s t symbols ts ht _ ih =>
      rw [followNames, List.all_cons, Bool.and_eq_true, Bool.and_eq_true, bne_iff_ne] at hsymbols
      have hfirst := specNames_of_inner separators hsymbols.1.1 hsymbols.1.2 ht
      rw [← List.singleton_append, specNames_append, hfirst, ih hsymbols.2, List.append_nil]

/-- What follows the names of a specification does not start with a comma. -/
theorem head_of_followNames {symbols : List Symbol} {ts : List Tree}
    (hsymbols : followNames symbols = true) (h : List.Forall₂ (Parsed content) symbols ts) :
    ∀ k ∈ (ts.flatMap tokens).head?, k.1 ≠ Terminal.comma.code := by
  cases h with
  | nil => simp
  | cons ht _ =>
      rw [followNames, List.all_cons, Bool.and_eq_true, Bool.and_eq_true] at hsymbols
      obtain ⟨k, rest, htokens, hk⟩ := ht.first_token hsymbols.1.2
      rw [List.flatMap_cons, htokens]
      simpa using hk

/-- Rows of a comma and a name. -/
theorem exists_more {found : List (List Tree)}
    (h : ∀ ts ∈ found, ∃ row ∈ [[Terminal.comma.code, Terminal.identifier.code]],
      List.Forall₂ (Parsed content) row ts) :
    ∃ more : List (Leaf × Leaf),
      found.flatten.flatMap tokens = more.flatMap (fun x => [x.1, x.2]) ∧
        ∀ x ∈ more, x.1.1 = Terminal.comma.code ∧ x.2.1 = Terminal.identifier.code := by
  induction found with
  | nil => exact ⟨[], rfl, by simp⟩
  | cons ts found ih =>
      rw [List.forall_mem_cons] at h
      obtain ⟨⟨row, hrow, hts⟩, hfound⟩ := h
      obtain ⟨more, htokens, hmore⟩ := ih hfound
      rw [List.mem_singleton.mp hrow, forall₂_pair_iff] at hts
      obtain ⟨comma, name, rfl, hcomma, hname⟩ := hts
      obtain ⟨start, stop, rfl⟩ := hcomma.exists_leaf
      obtain ⟨start', stop', rfl⟩ := hname.exists_leaf
      refine ⟨((Terminal.comma.code, start, stop), (Terminal.identifier.code, start', stop')) :: more,
        ?_, ?_⟩
      · rw [List.flatten_cons, List.flatMap_append, htokens]
        rfl
      · rw [List.forall_mem_cons]
        exact ⟨⟨rfl, rfl⟩, hmore⟩

/-- The names that a repetition of a comma and a name gives. -/
theorem specNames_of_more {more : List (Leaf × Leaf)}
    (hmore : ∀ x ∈ more, x.1.1 = Terminal.comma.code ∧ x.2.1 = Terminal.identifier.code)
    (separators : Bool) :
    ((more.flatMap fun x => [x.1, x.2]).filterMap fun (k : Leaf) =>
        if separators || k.1 == Terminal.identifier.code then some (identOf content k) else none) =
      (if separators then more.flatMap fun x => [x.1, x.2] else more.map Prod.snd).map
        (identOf content) := by
  have hcomma : Terminal.comma.code ≠ Terminal.identifier.code := by decide
  induction more with
  | nil => cases separators <;> rfl
  | cons x more ih =>
      rw [List.forall_mem_cons] at hmore
      have hrest := ih hmore.2
      cases separators with
      | true => simp
      | false => simpa [hmore.1.1, hmore.1.2, hcomma] using hrest

/-- The repetition of a comma and a name in a specification. -/
theorem exists_of_repeatsNames {s : Symbol} {t : Tree} (hs : repeatsNames s = true)
    (h : Parsed content s t) :
    ∃ more : List (Leaf × Leaf), tokens t = more.flatMap (fun x => [x.1, x.2]) ∧
      (∀ x ∈ more, x.1.1 = Terminal.comma.code ∧ x.2.1 = Terminal.identifier.code) ∧
      ∀ separators, specNames content separators [t] =
        (if separators then more.flatMap fun x => [x.1, x.2] else more.map Prod.snd).map
          (identOf content) := by
  obtain ⟨found, hunrolls, hrows⟩ := exists_unrolls hs h
  obtain ⟨more, htokens, hmore⟩ := exists_more hrows
  rw [← hunrolls.tokens_eq] at htokens
  refine ⟨more, htokens, hmore, ?_⟩
  intro separators
  obtain ⟨p, -, -, trees, rfl, -⟩ := h.exists_node (count_le_of_repeated hs)
  rw [← specNames_of_more hmore separators, ← htokens]
  simp only [specNames, isRepetition_of_repeated hs, if_true, List.flatMap_cons, List.flatMap_nil,
    List.append_nil]
  rfl

/-- The body of a specification: a name, perhaps more names, and what follows. -/
theorem startsWithNames_cases {body : List Symbol} (h : startsWithNames body = true) :
    ∃ tail, followNames tail = true ∧ (body = Terminal.identifier.code :: tail ∨
      ∃ s, repeatsNames s = true ∧ body = Terminal.identifier.code :: s :: tail) := by
  cases body with
  | nil => cases h
  | cons x rest =>
      rw [startsWithNames, Bool.and_eq_true, Bool.or_eq_true, Bool.and_eq_true, beq_iff_eq] at h
      obtain ⟨rfl, hrest | ⟨hhead, htail⟩⟩ := h
      · exact ⟨rest, hrest, Or.inl rfl⟩
      · obtain ⟨s, hs, hrepeats⟩ := (Option.any_eq_true _ _).mp hhead
        obtain ⟨tail, rfl⟩ := List.head?_eq_some_iff.mp hs
        exact ⟨tail, htail, Or.inr ⟨s, hrepeats, rfl⟩⟩

/-- A specification that stands in a tree, and what is reported for it. -/
structure Reports (content : Bytes) (constant : Bool) (t : Tree) (v : ValueSpec) : Prop where
  constant_eq : v.constant = constant
  tokens_eq : tokens t = v.tokens
  names_eq : specNames content constant (children t) = v.reported.map (identOf content)

/-- A specification whose tokens are those of a tree that the grammar has for it. -/
def ValueSpec.Formed (content : Bytes) (v : ValueSpec) : Prop :=
  ∃ t, Parsed content (specCategory v.constant).code t ∧ Go.tokens t = v.tokens

theorem Reports.formed {constant : Bool} {t : Tree} {v : ValueSpec}
    (h : Reports content constant t v) (ht : Parsed content (specCategory constant).code t) :
    v.Formed content := by
  rw [← h.constant_eq] at ht
  exact ⟨t, ht, h.tokens_eq⟩

/-- The names of a specification, and what it reports. -/
theorem exists_valueSpec {constant : Bool} {t : Tree}
    (h : Parsed content (specCategory constant).code t) :
    ∃ v : ValueSpec, Reports content constant t v := by
  obtain ⟨p, hp, hhead, trees, rfl, hall⟩ := h.exists_node (count_le_category _)
  have hbody : startsWithNames p.body = true := by
    cases constant with
    | true => exact (shaped_of_mem_productions p hp).constSpec hhead
    | false => exact (shaped_of_mem_productions p hp).varSpec hhead
  obtain ⟨tail, htail, hbody | ⟨s, hs, hbody⟩⟩ := startsWithNames_cases hbody
  · rw [hbody, List.forall₂_cons_left_iff] at hall
    obtain ⟨first, ts, hfirst, hts, rfl⟩ := hall
    obtain ⟨start, stop, rfl⟩ := hfirst.exists_leaf
    refine ⟨⟨constant, (Terminal.identifier.code, start, stop), [], ts.flatMap tokens, rfl, by simp,
      head_of_followNames htail hts⟩, rfl, ?_, ?_⟩
    · rw [tokens, tokensIn_eq]
      rfl
    · rw [children, ← List.singleton_append, specNames_append,
        specNames_of_followNames constant htail hts]
      cases constant <;> rfl
  · rw [hbody, List.forall₂_cons_left_iff] at hall
    obtain ⟨first, us, hfirst, hus, rfl⟩ := hall
    obtain ⟨start, stop, rfl⟩ := hfirst.exists_leaf
    rw [List.forall₂_cons_left_iff] at hus
    obtain ⟨names, ts, hnames, hts, rfl⟩ := hus
    obtain ⟨more, hmore, hcodes, hreported⟩ := exists_of_repeatsNames hs hnames
    refine ⟨⟨constant, (Terminal.identifier.code, start, stop), more, ts.flatMap tokens, rfl, hcodes,
      head_of_followNames htail hts⟩, rfl, ?_, ?_⟩
    · rw [tokens, tokensIn_eq, List.flatMap_cons, List.flatMap_cons, hmore]
      simp [tokens, ValueSpec.tokens, ValueSpec.listed]
    · have hrest : specNames content constant (names :: ts) = specNames content constant [names] := by
        rw [← List.singleton_append, specNames_append, specNames_of_followNames constant htail hts,
          List.append_nil]
      rw [children, ← List.singleton_append, specNames_append, hrest, hreported]
      cases constant <;> rfl

end Specifications

end Go
end GoTags
