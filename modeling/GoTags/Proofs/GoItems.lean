import GoTags.Go.Source
import GoTags.Proofs.GoTokens

/-!
# Where declared names stand

**Input.** The bytes of a Go file.

**Algorithm.** The tree of a file is derived by the productions, and so is every
tree inside it. Names are taken from leaves of such trees, and leaves are tokens
that stand in the content.

**Results.**
* `derived_itemTrees`, `derived_specs`: the trees of items and specifications.
* `tokens_of_derives`: the tokens of a tree whose symbol leads only to some others.
* `readFrom_itemsFrom`: what the items of a file are read from.
* `exists_spans`: the tree of a file that is accepted takes in all of it.
* `items_placed`: every name that is found in a file stands in it where it says.
-/

namespace GoTags
namespace Go

open Grammar

section Subtrees

variable {g : Tables} {R : Reading}

/-- A tree that is derived somewhere in a text. -/
def Derived (g : Tables) (R : Reading) (t : Tree) : Prop :=
  ∃ s a b, Derives g R s a t b

theorem derived_of_mem {symbols : List Symbol} {a b : Nat} {trees : List Tree}
    (h : DerivesAll g R symbols a trees b) {t : Tree} (ht : t ∈ trees) :
    ∃ s ∈ symbols, ∃ a b, Derives g R s a t b := by
  induction trees generalizing symbols a with
  | nil => cases ht
  | cons t' trees ih =>
      cases h with
      | cons h hrest =>
          rcases List.mem_cons.mp ht with rfl | ht
          · exact ⟨_, List.mem_cons_self, _, _, h⟩
          · obtain ⟨s, hs, hderives⟩ := ih hrest ht
            exact ⟨s, List.mem_cons_of_mem _ hs, hderives⟩

/-- The parts of a tree are those of a production. -/
theorem Derived.node {s : Symbol} {children : List Tree} (h : Derived g R (.node s children)) :
    ∃ p ∈ g.spec.productions, p.head = s ∧
      ∀ t ∈ children, ∃ x ∈ p.body, ∃ a b, Derives g R x a t b := by
  obtain ⟨s', a, b, h⟩ := h
  cases h with
  | @node a b p trees hp hall => exact ⟨p, hp, rfl, fun t ht => derived_of_mem hall ht⟩

theorem Derived.child {s : Symbol} {children : List Tree} (h : Derived g R (.node s children)) :
    ∀ t ∈ children, Derived g R t := by
  intro t ht
  obtain ⟨p, -, -, hall⟩ := h.node
  obtain ⟨x, -, a, b, hderives⟩ := hall t ht
  exact ⟨x, a, b, hderives⟩

theorem Derived.leaf {s : Symbol} {start stop : Nat} (h : Derived g R (.leaf s start stop)) :
    ∃ a b, R a (s, start, stop) b := by
  obtain ⟨s', a, b, h⟩ := h
  cases h with
  | leaf h => exact ⟨a, b, h⟩

mutual

theorem derived_itemTrees :
    ∀ t : Tree, Derived g R t → ∀ u ∈ itemTrees t, Derived g R u
  | .leaf s start stop, h, u, hu => by
      rw [itemTrees, List.mem_singleton] at hu
      rwa [hu]
  | .node s children, h, u, hu => by
      rw [itemTrees] at hu
      split at hu
      · exact derived_itemTreesIn children h.child u hu
      · rw [List.mem_singleton] at hu
        rwa [hu]

theorem derived_itemTreesIn :
    ∀ ts : List Tree, (∀ t ∈ ts, Derived g R t) →
      ∀ u ∈ itemTrees.itemTreesIn ts, Derived g R u
  | [], _, u, hu => by
      rw [itemTrees.itemTreesIn] at hu
      cases hu
  | t :: rest, h, u, hu => by
      rw [List.forall_mem_cons] at h
      rw [itemTrees.itemTreesIn, List.mem_append] at hu
      rcases hu with hu | hu
      · exact derived_itemTrees t h.1 u hu
      · exact derived_itemTreesIn rest h.2 u hu

end

mutual

theorem derived_specs {wanted through : Category → Bool} :
    ∀ t : Tree, Derived g R t → ∀ u ∈ specs wanted through t,
      Derived g R u ∧ ∃ c children, wanted c = true ∧ u = .node c.code children
  | .leaf s start stop, h, u, hu => by
      rw [specs] at hu
      cases hu
  | .node s children, h, u, hu => by
      rw [specs] at hu
      split at hu
      · rename_i hwanted
        rw [List.any_eq_true] at hwanted
        obtain ⟨c, -, hc⟩ := hwanted
        rw [Bool.and_eq_true, isCat, beq_iff_eq] at hc
        obtain ⟨rfl, hc⟩ := hc
        rw [List.mem_singleton] at hu
        subst hu
        exact ⟨h, c, children, hc, rfl⟩
      · split at hu
        · exact derived_specsIn children h.child u hu
        · cases hu

theorem derived_specsIn {wanted through : Category → Bool} :
    ∀ ts : List Tree, (∀ t ∈ ts, Derived g R t) → ∀ u ∈ specs.specsIn wanted through ts,
      Derived g R u ∧ ∃ c children, wanted c = true ∧ u = .node c.code children
  | [], _, u, hu => by
      rw [specs.specsIn] at hu
      cases hu
  | t :: rest, h, u, hu => by
      rw [List.forall_mem_cons] at h
      rw [specs.specsIn, List.mem_append] at hu
      rcases hu with hu | hu
      · exact derived_specs t h.1 u hu
      · exact derived_specsIn rest h.2 u hu

end

/-- Symbols that lead only to each other. -/
def Closed (g : Tables) (S : Symbol → Prop) : Prop :=
  ∀ p ∈ g.spec.productions, S p.head → ∀ x ∈ p.body, S x

mutual

theorem tokens_of_derives {S : Symbol → Prop} (hS : Closed g S) :
    ∀ (t : Tree) {s : Symbol} {a b : Nat}, Derives g R s a t b → S s →
      ∀ k ∈ tokens t, S k.1 ∧ ∃ a b, R a k b
  | .leaf _ _ _, s, a, b, h, hs, k, hk => by
      rw [tokens, List.mem_singleton] at hk
      subst hk
      cases h with
      | leaf h => exact ⟨hs, a, b, h⟩
  | .node _ children, s, a, b, h, hs, k, hk => by
      rw [tokens] at hk
      cases h with
      | node hp hall => exact tokensIn_of_derives hS children hall (hS _ hp hs) k hk

theorem tokensIn_of_derives {S : Symbol → Prop} (hS : Closed g S) :
    ∀ (ts : List Tree) {symbols : List Symbol} {a b : Nat}, DerivesAll g R symbols a ts b →
      (∀ s ∈ symbols, S s) → ∀ k ∈ tokens.tokensIn ts, S k.1 ∧ ∃ a b, R a k b
  | [], _, _, _, _, _, k, hk => by
      rw [tokens.tokensIn] at hk
      cases hk
  | t :: rest, _, _, _, h, hs, k, hk => by
      rw [tokens.tokensIn, List.mem_append] at hk
      cases h with
      | cons h hrest =>
          rw [List.forall_mem_cons] at hs
          rcases hk with hk | hk
          · exact tokens_of_derives hS t h hs.1 k hk
          · exact tokensIn_of_derives hS rest hrest hs.2 k hk

end

end Subtrees

section Names

/-- A name stands in a content where it says: at a boundary between characters, on
the line whose number is one more than the newlines before, and on one line. -/
structure Placed (content : Bytes) (i : Ident) (before after : String) : Prop where
  content_eq : content = Utf8.encode before ++ Utf8.encode i.name ++ Utf8.encode after
  byteOffset_eq : i.byteOffset = (Utf8.encode before).length
  line_eq : i.line = (Utf8.encode before).count Bytes.newline + 1
  name_ne : i.name ≠ ""
  one_line : Bytes.newline ∉ Utf8.encode i.name

theorem Terminal.code_injective : Function.Injective Terminal.code := by
  intro t u h
  rw [← Terminal.ofNat_ctorIdx t, ← Terminal.ofNat_ctorIdx u]
  exact congrArg Terminal.ofNat h

theorem Terminal.code_lt (t : Terminal) : t.code < Terminal.count := by
  cases t <;> decide

/-- A newline byte only comes from a newline. -/
theorem newline_mem_encode {cs : List Char} (h : Bytes.newline ∈ Utf8.encode (String.ofList cs)) :
    '\n' ∈ cs := by
  obtain ⟨left, right, hsplit⟩ := List.append_of_mem h
  rw [Utf8.encode_ofList] at hsplit
  obtain ⟨before, after, rfl, -, -⟩ := Utf8.exists_split_ascii (by decide) hsplit
  exact List.mem_append_right _ List.mem_cons_self

theorem IsName.ne_nil {cs : List Char} (h : IsName cs) : cs ≠ [] := by
  obtain ⟨c, rest, rfl, -⟩ := h
  exact List.cons_ne_nil c rest

theorem IsName.newline_not_mem {cs : List Char} (h : IsName cs) : '\n' ∉ cs := by
  obtain ⟨c, rest, rfl, hstart, hrest⟩ := h
  intro hmem
  rcases List.mem_cons.mp hmem with rfl | hmem
  · exact absurd hstart (by decide)
  · exact absurd (hrest _ hmem) (by decide)

/-- What is read between the ends of a token is its characters. -/
theorem Stands.identAt_eq {content : Bytes} {t : Terminal} {start stop : Nat}
    {before front after : List Char} (h : Stands content t start stop before front after) :
    identAt content start stop = ⟨String.ofList front, Lines.numberAt content start, start⟩ := by
  have hname : (content.drop start).take (stop - start) = Utf8.encode (String.ofList front) := by
    rw [h.stop_eq, Nat.add_sub_cancel_left, h.content_eq, h.start_eq, List.append_assoc,
      List.drop_left, List.take_left]
  rw [identAt, hname, Utf8.lossy_encode]

/-- What stands between the ends of a token is a name in its place, if its
characters are on one line. -/
theorem Stands.placed {content : Bytes} {t : Terminal} {start stop : Nat}
    {before front after : List Char} (h : Stands content t start stop before front after)
    (hne : front ≠ []) (hnewline : '\n' ∉ front) :
    Placed content (identAt content start stop) (String.ofList before) (String.ofList after) := by
  rw [h.identAt_eq]
  refine ⟨h.content_eq, h.start_eq, ?_, ?_, ?_⟩
  · dsimp only
    rw [Lines.numberAt, h.content_eq, h.start_eq, List.append_assoc, List.take_left]
  · dsimp only
    rwa [Ne, ← String.toList_inj, String.toList_ofList]
  · exact fun hmem => hnewline (newline_mem_encode hmem)

/-- The tokens that are taken for names stand in the content. -/
theorem placed_of_reads {content : Bytes} {a b : Nat} {k : Leaf} (h : Reads content a k b)
    (hk : k.1 = Terminal.identifier.code ∨ k.1 = Terminal.comma.code) :
    ∃ before after, Placed content (identAt content k.2.1 k.2.2) before after := by
  obtain ⟨s, start, stop⟩ := k
  obtain ⟨-, -, t, rfl, before, front, after, hstands⟩ := h
  rcases hk with hk | hk
  · obtain rfl := Terminal.code_injective hk
    have hname := hstands.spelt.1 rfl
    exact ⟨_, _, hstands.placed hname.ne_nil hname.newline_not_mem⟩
  · obtain rfl := Terminal.code_injective hk
    have hcomma : front = [','] := hstands.spelt.2 "," (by decide)
    exact ⟨_, _, hstands.placed (by rw [hcomma]; decide) (by rw [hcomma]; decide)⟩

variable {content : Bytes}

/-- A declared name is read from a token. -/
theorem exists_of_declaredName {children : List Tree}
    (h : ∀ t ∈ children, Derived tables (Reads content) t) {i : Ident}
    (hi : declaredName content children = some i) :
    ∃ a b, ∃ k : Leaf, Reads content a k b ∧ k.1 = Terminal.identifier.code ∧
      i = identAt content k.2.1 k.2.2 := by
  obtain ⟨t, ht, hsome⟩ := List.exists_of_findSome?_eq_some hi
  cases t with
  | node s parts => cases hsome
  | leaf s start stop =>
      dsimp only at hsome
      split at hsome
      · rename_i hs
        rw [beq_iff_eq] at hs
        cases hsome
        obtain ⟨a, b, hreads⟩ := (h _ ht).leaf
        exact ⟨a, b, _, hreads, hs, rfl⟩
      · cases hsome

theorem placed_of_declaredName {children : List Tree}
    (h : ∀ t ∈ children, Derived tables (Reads content) t) {i : Ident}
    (hi : declaredName content children = some i) :
    ∃ before after, Placed content i before after := by
  obtain ⟨a, b, k, hreads, hk, rfl⟩ := exists_of_declaredName h hi
  exact placed_of_reads hreads (Or.inl hk)

/-- A repetition of some symbols: its productions have no others but itself. -/
def Repeats (spec : Spec) (allowed : List Symbol) (s : Symbol) : Bool :=
  spec.productions.all fun p => p.head != s || p.body.all fun x => x == s || allowed.contains x

/-- The only repetition in a constant specification is that of a comma and a name. -/
theorem constSpec_repeats :
    (spec.productions.all fun p => p.head != Category.constSpec.code || p.body.all fun x =>
      !isRepetition x || Repeats spec [Terminal.identifier.code, Terminal.comma.code] x) = true := by
  decide +kernel

theorem count_le_head : (spec.productions.all fun p => Terminal.count ≤ p.head) = true := by
  decide +kernel

theorem closed_of_repeats {allowed : List Symbol} {s : Symbol}
    (h : Repeats spec allowed s = true) (hallowed : ∀ x ∈ allowed, x < Terminal.count) :
    Closed tables fun x => x = s ∨ x ∈ allowed := by
  intro p hp hhead x hx
  have hproduction := List.all_eq_true.mp h p hp
  rw [Bool.or_eq_true, bne_iff_ne] at hproduction
  rcases hhead with hhead | hhead
  · have hbody := List.all_eq_true.mp (hproduction.resolve_left (not_not_intro hhead)) x hx
    rw [Bool.or_eq_true, beq_iff_eq, List.contains_iff_mem] at hbody
    exact hbody
  · have hcount := of_decide_eq_true (List.all_eq_true.mp count_le_head p hp)
    exact absurd (hallowed _ hhead) (Nat.not_lt.mpr hcount)

/-- A name of a specification is read from one of its tokens. -/
theorem exists_of_mem_specNames {separators : Bool} {s : Symbol} {parts : List Tree}
    (h : Derived tables (Reads content) (.node s parts)) {i : Ident}
    (hi : i ∈ specNames content separators parts) :
    ∃ k : Leaf, i = identAt content k.2.1 k.2.2 ∧
      ((k.1 = Terminal.identifier.code ∧ ∃ a b, Reads content a k b) ∨
        separators = true ∧ ∃ p ∈ spec.productions, p.head = s ∧ ∃ x ∈ p.body,
          ∃ children a b, Derives tables (Reads content) x a (.node x children) b ∧
            isRepetition x = true ∧ k ∈ tokens (.node x children)) := by
  obtain ⟨p, hp, hhead, hall⟩ := h.node
  obtain ⟨t, ht, hi⟩ := List.mem_flatMap.mp hi
  obtain ⟨x, hx, a, b, hderives⟩ := hall t ht
  cases t with
  | leaf y start stop =>
      dsimp only at hi
      split at hi
      · rename_i hy
        rw [beq_iff_eq] at hy
        rw [List.mem_singleton] at hi
        obtain ⟨a, b, hreads⟩ := Derived.leaf ⟨x, a, b, hderives⟩
        exact ⟨(y, start, stop), hi, Or.inl ⟨hy, a, b, hreads⟩⟩
      · cases hi
  | node y children =>
      have hxy : x = y := by
        cases hderives
        rfl
      subst hxy
      dsimp only at hi
      split at hi
      · rename_i hrepetition
        obtain ⟨k, hk, hi⟩ := List.mem_filterMap.mp hi
        obtain ⟨u, start, stop⟩ := k
        dsimp only at hi
        split at hi
        · rename_i htaken
          cases hi
          refine ⟨(u, start, stop), rfl, ?_⟩
          by_cases hu : u = Terminal.identifier.code
          · have hread := tokens_of_derives (S := fun _ => True) (fun _ _ _ _ _ => trivial) _
              hderives trivial _ hk
            exact Or.inl ⟨hu, hread.2⟩
          · rw [Bool.or_eq_true, beq_iff_eq] at htaken
            exact Or.inr ⟨htaken.resolve_right hu, p, hp, hhead, x, hx, children, a, b, hderives,
              hrepetition, hk⟩
        · cases hi
      · cases hi

theorem placed_of_mem_specNames {separators : Bool} {s : Symbol} {parts : List Tree}
    (h : Derived tables (Reads content) (.node s parts))
    (hs : separators = true → s = Category.constSpec.code) {i : Ident}
    (hi : i ∈ specNames content separators parts) :
    ∃ before after, Placed content i before after := by
  obtain ⟨k, rfl, ⟨hk, a, b, hreads⟩ | ⟨hseparators, p, hp, hhead, x, hx, children, a, b, hderives,
    hrepetition, hk⟩⟩ := exists_of_mem_specNames h hi
  · exact placed_of_reads hreads (Or.inl hk)
  · -- the repetition in a constant specification leads to commas and names only
    have hrepeats : Repeats spec [Terminal.identifier.code, Terminal.comma.code] x = true := by
      have hproduction := List.all_eq_true.mp constSpec_repeats p hp
      rw [Bool.or_eq_true, bne_iff_ne] at hproduction
      have hbody := hproduction.resolve_left (not_not_intro (hhead.trans (hs hseparators)))
      have hsymbol := List.all_eq_true.mp hbody x hx
      rw [hrepetition] at hsymbol
      exact hsymbol
    have hclosed := closed_of_repeats hrepeats (by decide)
    obtain ⟨hsymbol, a, b, hreads⟩ := tokens_of_derives hclosed _ hderives (Or.inl rfl) k hk
    obtain ⟨u, start, stop⟩ := k
    refine placed_of_reads hreads ?_
    rcases hsymbol with hsymbol | hsymbol
    · obtain ⟨-, -, t, hcode, -⟩ := hreads
      dsimp only at hsymbol
      have hlt := Terminal.code_lt t
      rw [← hcode, hsymbol] at hlt
      have hle : Terminal.count ≤ x :=
        Nat.le_trans (Nat.le_add_right _ _) (of_decide_eq_true hrepetition)
      exact absurd hlt (Nat.not_lt.mpr hle)
    · simpa using hsymbol

end Names

section Items

variable {content : Bytes}

/-- Every name of some items stands in the content. -/
def AllPlaced (content : Bytes) (found : List TopLevel) : Prop :=
  ∀ item ∈ found, ∀ x ∈ item.idents, ∃ before after, Placed content x.2 before after

/-- What an item of a source is read from: nothing that is declared, a name among the parts
of a tree, or a specification, where separators are taken along only for constants. -/
inductive ReadFrom (content : Bytes) : TopLevel → Prop
  | other (kind : String) : ReadFrom content (.other kind)
  | function {parts : List Tree} {i : Ident} (h : ∀ t ∈ parts, Derived tables (Reads content) t)
      (hi : declaredName content parts = some i) : ReadFrom content (.function i)
  | type {parts : List Tree} {i : Ident} (h : ∀ t ∈ parts, Derived tables (Reads content) t)
      (hi : declaredName content parts = some i) : ReadFrom content (.type i)
  | value {separators : Bool} {s : Symbol} {parts : List Tree}
      (h : Derived tables (Reads content) (.node s parts))
      (hs : separators = true → s = Category.constSpec.code) :
      ReadFrom content (.value (specNames content separators parts))

theorem ReadFrom.placed {item : TopLevel} (h : ReadFrom content item) :
    ∀ x ∈ item.idents, ∃ before after, Placed content x.2 before after := by
  cases h with
  | other kind => simp [TopLevel.idents]
  | function h hi => simpa [TopLevel.idents] using placed_of_declaredName h hi
  | type h hi => simpa [TopLevel.idents] using placed_of_declaredName h hi
  | value h hs =>
      intro x hx
      obtain ⟨i, hi, rfl⟩ := List.mem_map.mp hx
      exact placed_of_mem_specNames h hs hi

theorem readFrom_values {wanted through : Category → Bool} {separators : Bool}
    (hwanted : ∀ c, wanted c = true → separators = true → c = .constSpec) {parts : List Tree}
    (h : ∀ t ∈ parts, Derived tables (Reads content) t) :
    ∀ item ∈ (parts.flatMap (specs wanted through)).map fun t =>
      TopLevel.value (specNames content separators (children t)), ReadFrom content item := by
  rw [List.forall_mem_map]
  intro u hu
  obtain ⟨t, ht, hu⟩ := List.mem_flatMap.mp hu
  obtain ⟨hderived, c, parts', hc, rfl⟩ := derived_specs t (h t ht) u hu
  exact .value hderived fun hs => congrArg Category.code (hwanted c hc hs)

theorem readFrom_topLevel {t : Tree} (h : Derived tables (Reads content) t) :
    ∀ item ∈ topLevel content t, ReadFrom content item := by
  cases t with
  | leaf s start stop =>
      rw [topLevel]
      split_ifs <;> simp [ReadFrom.other]
  | node s parts =>
      rw [topLevel]
      split
      · intro item hitem
        rw [Option.mem_toList, Option.map_eq_some_iff] at hitem
        obtain ⟨i, hi, rfl⟩ := hitem
        exact .function h.child hi
      · split
        · intro item hitem
          obtain ⟨u, hu, hitem⟩ := List.mem_filterMap.mp hitem
          obtain ⟨t, ht, hu⟩ := List.mem_flatMap.mp hu
          obtain ⟨hderived, c, parts', -, rfl⟩ := derived_specs t (h.child t ht) u hu
          obtain ⟨i, hi, rfl⟩ := Option.map_eq_some_iff.mp hitem
          exact .type hderived.child hi
        · split
          · exact readFrom_values (fun c hc _ => beq_iff_eq.mp hc) h.child
          · split
            · exact readFrom_values (fun c _ hfalse => by cases hfalse) h.child
            · split <;> simp [ReadFrom.other]

/-- The items of a file are read from its trees. -/
theorem readFrom_itemsFrom {start : Nat} {trees : List Tree}
    (h : ∀ t ∈ trees, Derived tables (Reads content) t) :
    ∀ item ∈ itemsFrom content start trees, ReadFrom content item := by
  have hcomments : ∀ start stop, ∀ item ∈ commentItems content start stop,
      ReadFrom content item := by
    intro start stop item hitem
    rw [List.eq_of_mem_replicate hitem]
    exact .other _
  induction trees generalizing start with
  | nil => exact hcomments _ _
  | cons t rest ih =>
      rw [List.forall_mem_cons] at h
      rw [itemsFrom, List.forall_mem_append, List.forall_mem_append]
      exact ⟨⟨hcomments _ _, readFrom_topLevel h.1⟩, ih h.2⟩

theorem startOf_at (h : Utf8.IsText content) :
    (startOf (Utf8.lossy content).toList).At content := by
  have hcontent := Utf8.encode_lossy h
  generalize Utf8.lossy content = text at hcontent
  rw [← String.ofList_toList (s := text)] at hcontent
  unfold startOf
  generalize text.toList = cs at hcontent
  cases cs with
  | nil => exact ⟨[], hcontent.symm, rfl⟩
  | cons c rest =>
      dsimp only
      split
      · exact ⟨[c], hcontent.symm, rfl⟩
      · exact ⟨[], hcontent.symm, rfl⟩

/-- The start symbol stands in no production, and its own end with the end of the file. -/
theorem file_productions : ∀ p ∈ spec.productions, spec.start ∉ p.body ∧
    (p.head = spec.start → p.body.getLast? = some Terminal.endOfFile.code) := by
  decide +kernel

/-- The tree of a file takes in all tokens of the content, from the place where reading
starts to the end. -/
def Spans (content : Bytes) (file : Tree) : Prop :=
  Derives tables (Follows content) spec.start (startOf (Utf8.lossy content).toList).offset file
    content.length

/-- A tree of a file ends where the content does. -/
theorem eq_length_of_derives {a b : Nat} {file : Tree}
    (h : Derives tables (Follows content) spec.start a file b) : b = content.length := by
  have hend : ∃ t m, Derives tables (Follows content) Terminal.endOfFile.code m t b := by
    generalize hs : spec.start = s at h
    cases h with
    | leaf h =>
        obtain ⟨-, t, hcode, -⟩ := h
        have hlt := Terminal.code_lt t
        rw [← hcode, ← hs] at hlt
        exact absurd hlt (by decide)
    | node hp hall =>
        obtain ⟨symbols, hbody⟩ := List.getLast?_eq_some_iff.mp ((file_productions _ hp).2 hs.symm)
        rw [hbody] at hall
        exact hall.exists_last
  obtain ⟨t, m, h⟩ := hend
  generalize hs : Terminal.endOfFile.code = s at h
  cases h with
  | node hp =>
      have hcount := of_decide_eq_true (List.all_eq_true.mp count_le_head _ hp)
      rw [← hs] at hcount
      exact absurd hcount (by decide)
  | leaf h =>
      obtain ⟨rfl, t, hcode, before, gap, front, after, -, -, hstands, hafter⟩ := h
      obtain rfl := Terminal.code_injective (hs.trans hcode)
      rw [hstands.stop_eq, hstands.start_eq, hstands.content_eq, hafter rfl, List.length_append,
        List.length_append, length_encode_ofList []]
      rfl

/-- What the parser makes of a content. -/
def fileOf (content : Bytes) : Except Nat Tree :=
  parse tables (scanner tables content.length) content.length (startOf (Utf8.lossy content).toList)

/-- The items of a file that is accepted are those of its tree, which takes in all of it. -/
theorem exists_spans {found : List TopLevel} (h : items content = .ok found) :
    Utf8.IsText content ∧ ∃ file, fileOf content = .ok file ∧ Spans content file ∧
      found = itemsFrom content (startOf (Utf8.lossy content).toList).offset (itemTrees file) := by
  unfold items at h
  split at h
  · cases h
  · rename_i hdefect
    have htext := Utf8.defect?_eq_none_iff.mp hdefect
    dsimp only at h
    split at h
    · cases h
    · rename_i file hparse
      cases h
      have hfit : tables.Fit := fit_of fun p hp => (file_productions p hp).1
      obtain ⟨b, hderives⟩ := parse_derives hfit (scanner_obeys tables content _)
        (startOf_at htext) hparse
      obtain rfl := eq_length_of_derives hderives
      exact ⟨htext, file, hparse, hderives, rfl⟩

/-- The items of a file that is accepted are those of a tree that is read in it. -/
theorem exists_of_items {found : List TopLevel} (h : items content = .ok found) :
    Utf8.IsText content ∧ ∃ start tree a b, Derives tables (Reads content) spec.start a tree b ∧
      found = itemsFrom content start (itemTrees tree) := by
  obtain ⟨htext, file, -, hspans, hfound⟩ := exists_spans h
  exact ⟨htext, _, file, _, _, hspans.mono Follows.reads, hfound⟩

/-- **Names stand where they say.** The content of a file that is accepted is text,
and every name that is found in it stands in it. -/
theorem items_placed {found : List TopLevel} (h : items content = .ok found) :
    Utf8.IsText content ∧ AllPlaced content found := by
  obtain ⟨htext, start, tree, a, b, hderives, rfl⟩ := exists_of_items h
  have htrees := derived_itemTrees tree ⟨_, a, b, hderives⟩
  exact ⟨htext, fun item hitem => (readFrom_itemsFrom htrees item hitem).placed⟩

theorem parseSource_eq_ok {path : String} {tree : SourceTree}
    (h : parseSource path content = .ok tree) :
    tree.path = path ∧ items content = .ok tree.items := by
  unfold parseSource at h
  split at h
  · split at h
    · rename_i found hitems
      cases h
      exact ⟨rfl, hitems⟩
    · cases h
  · cases h

end Items

end Go
end GoTags
