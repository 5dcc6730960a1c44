import GoTags.Proofs.GoSpecs

/-!
# Values that a source declares

**Input.** The bytes of a Go file.

**Algorithm.** A declaration of constants or variables has one specification after its
word, or several in parentheses. Each specification gives a value item.

**Results.**
* `exists_declares`: the specifications of an item of a file, and what is reported for them.
* `ValueSpec.forall_isName_iff`: when only names are reported for a specification.
* `declarations_filter_value`: the declarations of values are the names of value items.
* `values_of_source`: what the value items of a source report.
-/

namespace GoTags
namespace Go

open Grammar

section Declarations

/-- The category of declarations of constants, or of variables. -/
def declarationCategory : Bool → Category
  | true => .constDeclaration
  | false => .varDeclaration

/-- The word in front of constants, or of variables. -/
def declarationWord : Bool → Terminal
  | true => .kwConst
  | false => .kwVar

/-- A specification of a group with its terminator. -/
structure IsMember (content : Bytes) (constant : Bool) (m : ValueSpec × Leaf) : Prop where
  constant_eq : m.1.constant = constant
  formed : m.1.Formed content
  terminated : ∃ e ∈ terminators, m.2.1 = e.code

/-- Tokens of specifications in parentheses, each with a terminator. -/
inductive Grouped (content : Bytes) (constant : Bool) : List Leaf → List ValueSpec → Prop
  | mk {opening closing : Leaf} {members : List (ValueSpec × Leaf)}
      (hopening : opening.1 = Terminal.lparen.code) (hclosing : closing.1 = Terminal.rparen.code)
      (hmembers : ∀ m ∈ members, IsMember content constant m) :
      Grouped content constant
        (opening :: (members.flatMap fun m => m.1.tokens ++ [m.2]) ++ [closing])
        (members.map Prod.fst)

/-- The value specifications of an item of a file: one after the word, or a group; other
items have none. -/
inductive Declares (content : Bytes) : Tree → List ValueSpec → Prop
  | one {constant : Bool} {parts : List Tree} {word : Leaf} {v : ValueSpec}
      (hword : word.1 = (declarationWord constant).code) (hconstant : v.constant = constant)
      (hformed : v.Formed content)
      (htokens : tokens (.node (declarationCategory constant).code parts) = word :: v.tokens) :
      Declares content (.node (declarationCategory constant).code parts) [v]
  | group {constant : Bool} {parts : List Tree} {word : Leaf} {ks : List Leaf}
      {vs : List ValueSpec} (hword : word.1 = (declarationWord constant).code)
      (hgroup : Grouped content constant ks vs)
      (htokens : tokens (.node (declarationCategory constant).code parts) = word :: ks) :
      Declares content (.node (declarationCategory constant).code parts) vs
  | none {t : Tree} (h : ∀ constant parts, t ≠ .node (declarationCategory constant).code parts) :
      Declares content t []

/-- What is reported for the specifications that are reached from some trees. -/
def reportsIn (content : Bytes) (constant : Bool) (through : Category → Bool) (ts : List Tree) :
    List (List Ident) :=
  (ts.flatMap (specs (· == specCategory constant) through)).map fun t =>
    specNames content constant (children t)

variable {content : Bytes} {constant : Bool} {through : Category → Bool}

theorem reportsIn_append (ts us : List Tree) :
    reportsIn content constant through (ts ++ us) =
      reportsIn content constant through ts ++ reportsIn content constant through us := by
  rw [reportsIn, List.flatMap_append, List.map_append]
  rfl

theorem reportsIn_leaf_cons (s : Symbol) (start stop : Nat) (ts : List Tree) :
    reportsIn content constant through (.leaf s start stop :: ts) =
      reportsIn content constant through ts := by
  simp [reportsIn, specs]

theorem reportsIn_spec_cons {t : Tree} {v : ValueSpec}
    (ht : Parsed content (specCategory constant).code t) (hv : Reports content constant t v)
    (ts : List Tree) :
    reportsIn content constant through (t :: ts) =
      v.reported.map (identOf content) :: reportsIn content constant through ts := by
  obtain ⟨p, -, -, trees, rfl, -⟩ := ht.exists_node (count_le_category _)
  have hwanted : (Category.all.any fun c =>
      isCat (specCategory constant).code c && c == specCategory constant) = true := by
    cases constant <;> decide
  simp [reportsIn, specs, hwanted, hv.names_eq]

/-- Specifications with terminators after them. -/
theorem exists_members (through : Category → Bool) {found : List (List Tree)}
    (h : ∀ ts ∈ found, ∃ row ∈ terminators.map (fun e => [(specCategory constant).code, e.code]),
      List.Forall₂ (Parsed content) row ts) :
    ∃ members : List (ValueSpec × Leaf),
      found.flatten.flatMap tokens = members.flatMap (fun m => m.1.tokens ++ [m.2]) ∧
      (∀ m ∈ members, IsMember content constant m) ∧
      reportsIn content constant through found.flatten =
        members.map fun m => m.1.reported.map (identOf content) := by
  induction found with
  | nil => exact ⟨[], rfl, by simp, rfl⟩
  | cons ts found ih =>
      rw [List.forall_mem_cons] at h
      obtain ⟨⟨row, hrow, hts⟩, hfound⟩ := h
      obtain ⟨members, htokens, hmembers, hreports⟩ := ih hfound
      obtain ⟨e, he, rfl⟩ := List.mem_map.mp hrow
      obtain ⟨t, last, rfl, ht, hlast⟩ := forall₂_pair_iff.mp hts
      obtain ⟨v, hv⟩ := exists_valueSpec ht
      obtain ⟨start, stop, rfl⟩ := hlast.exists_leaf
      refine ⟨(v, (e.code, start, stop)) :: members, ?_, ?_, ?_⟩
      · simp [htokens, hv.tokens_eq, tokens]
      · rw [List.forall_mem_cons]
        exact ⟨⟨hv.constant_eq, hv.formed ht, e, he, rfl⟩, hmembers⟩
      · rw [List.flatten_cons, reportsIn_append, reportsIn_spec_cons ht hv, reportsIn_leaf_cons,
          hreports]
        rfl

theorem isGroup_cases {symbols : List Symbol} (h : isGroup constant symbols = true) :
    symbols = [Terminal.lparen.code, Terminal.rparen.code] ∨
      ∃ s, Repeated (terminators.map fun e => [(specCategory constant).code, e.code]) s = true ∧
        symbols = [Terminal.lparen.code, s, Terminal.rparen.code] := by
  unfold isGroup at h
  split at h
  · rw [Bool.and_eq_true, beq_iff_eq, beq_iff_eq] at h
    exact Or.inl (by rw [h.1, h.2])
  · rename_i x y z
    rw [Bool.and_eq_true, Bool.and_eq_true, beq_iff_eq, beq_iff_eq] at h
    exact Or.inr ⟨y, h.2, by rw [h.1.1, h.1.2]⟩
  · cases h

/-- The specifications of a group. -/
theorem exists_grouped (through : Category → Bool) {symbols : List Symbol} {ts : List Tree}
    (hsymbols : isGroup constant symbols = true) (h : List.Forall₂ (Parsed content) symbols ts) :
    ∃ vs, Grouped content constant (ts.flatMap tokens) vs ∧
      reportsIn content constant through ts = vs.map fun v => v.reported.map (identOf content) := by
  rcases isGroup_cases hsymbols with rfl | ⟨s, hs, rfl⟩
  · obtain ⟨opening, closing, rfl, hopening, hclosing⟩ := forall₂_pair_iff.mp h
    obtain ⟨start, stop, rfl⟩ := hopening.exists_leaf
    obtain ⟨start', stop', rfl⟩ := hclosing.exists_leaf
    have hnone : ∀ m ∈ ([] : List (ValueSpec × Leaf)), IsMember content constant m := by
      simp
    refine ⟨[], .mk rfl rfl hnone, ?_⟩
    rw [reportsIn_leaf_cons, reportsIn_leaf_cons]
    rfl
  · rw [List.forall₂_cons_left_iff] at h
    obtain ⟨opening, rest, hopening, hrest, rfl⟩ := h
    obtain ⟨t, closing, rfl, ht, hclosing⟩ := forall₂_pair_iff.mp hrest
    obtain ⟨start, stop, rfl⟩ := hopening.exists_leaf
    obtain ⟨start', stop', rfl⟩ := hclosing.exists_leaf
    obtain ⟨found, hunrolls, hrows⟩ := exists_unrolls hs ht
    obtain ⟨members, htokens, hmembers, hreports⟩ := exists_members through hrows
    refine ⟨members.map Prod.fst, ?_, ?_⟩
    · have hall : [Tree.leaf Terminal.lparen.code start stop, t,
            .leaf Terminal.rparen.code start' stop'].flatMap tokens =
          (Terminal.lparen.code, start, stop) ::
            (members.flatMap fun m => m.1.tokens ++ [m.2]) ++ [(Terminal.rparen.code, start', stop')] := by
        simp [tokens, hunrolls.tokens_eq, htokens]
      rw [hall]
      exact .mk rfl rfl hmembers
    · have hinner : reportsIn content constant through [t] =
          reportsIn content constant through found.flatten := by
        rw [reportsIn, reportsIn, List.flatMap_singleton,
          hunrolls.specs_eq (isRepetition_of_repeated hs)]
      rw [reportsIn_leaf_cons, ← List.singleton_append, reportsIn_append, hinner, hreports,
        reportsIn_leaf_cons, List.map_map]
      exact List.append_nil _

theorem tokens_leaf_cons (s x : Symbol) (start stop : Nat) (ts : List Tree) :
    tokens (.node s (.leaf x start stop :: ts)) = (x, start, stop) :: ts.flatMap tokens := by
  rw [tokens, tokensIn_eq]
  rfl

/-- A specification right after the word. -/
theorem exists_declares_spec (through : Category → Bool) {t : Tree}
    (ht : Parsed content (specCategory constant).code t) (start stop : Nat) :
    let parts := [.leaf (declarationWord constant).code start stop, t]
    ∃ vs, Declares content (.node (declarationCategory constant).code parts) vs ∧
      reportsIn content constant through parts =
        vs.map fun v => v.reported.map (identOf content) := by
  intro parts
  obtain ⟨v, hv⟩ := exists_valueSpec ht
  have htokens : tokens (.node (declarationCategory constant).code parts) =
      ((declarationWord constant).code, start, stop) :: v.tokens := by
    rw [tokens_leaf_cons, List.flatMap_singleton, hv.tokens_eq]
  refine ⟨[v], .one rfl hv.constant_eq (hv.formed ht) htokens, ?_⟩
  rw [reportsIn_leaf_cons]
  exact reportsIn_spec_cons ht hv []

theorem exists_declares_const {parts : List Tree}
    (h : Parsed content (declarationCategory true).code
      (.node (declarationCategory true).code parts)) :
    ∃ vs, Declares content (.node (declarationCategory true).code parts) vs ∧
      reportsIn content true (fun _ => false) parts =
        vs.map fun v => v.reported.map (identOf content) := by
  obtain ⟨p, hp, hhead, trees, htrees, hall⟩ := h.exists_node (count_le_category _)
  cases htrees
  obtain ⟨hword, hrest⟩ := (shaped_of_mem_productions p hp).constDeclaration hhead
  obtain ⟨symbols, hbody⟩ := List.head?_eq_some_iff.mp hword
  rw [hbody, List.forall₂_cons_left_iff] at hall
  obtain ⟨word, ts, hword, hts, rfl⟩ := hall
  obtain ⟨start, stop, rfl⟩ := hword.exists_leaf
  rw [hbody, List.tail_cons] at hrest
  rcases hrest with rfl | hgroup
  · obtain ⟨t, rest, ht, hnil, rfl⟩ := List.forall₂_cons_left_iff.mp hts
    obtain rfl := List.forall₂_nil_left_iff.mp hnil
    exact exists_declares_spec (fun _ => false) ht start stop
  · obtain ⟨vs, hgrouped, hreports⟩ := exists_grouped (fun _ => false) hgroup hts
    rw [reportsIn_leaf_cons]
    exact ⟨vs, .group rfl hgrouped (tokens_leaf_cons _ _ _ _ _), hreports⟩

theorem exists_declares_var {parts : List Tree}
    (h : Parsed content (declarationCategory false).code
      (.node (declarationCategory false).code parts)) :
    ∃ vs, Declares content (.node (declarationCategory false).code parts) vs ∧
      reportsIn content false (· == .varSpecList) parts =
        vs.map fun v => v.reported.map (identOf content) := by
  obtain ⟨p, hp, hhead, trees, htrees, hall⟩ := h.exists_node (count_le_category _)
  cases htrees
  rcases (shaped_of_mem_productions p hp).varDeclaration hhead with hbody | hbody
  · rw [hbody, forall₂_pair_iff] at hall
    obtain ⟨word, t, rfl, hword, ht⟩ := hall
    obtain ⟨start, stop, rfl⟩ := hword.exists_leaf
    exact exists_declares_spec (· == .varSpecList) ht start stop
  · rw [hbody, forall₂_pair_iff] at hall
    obtain ⟨word, list, rfl, hword, hlist⟩ := hall
    obtain ⟨start, stop, rfl⟩ := hword.exists_leaf
    obtain ⟨q, hq, hhead', ts, rfl, hts⟩ := hlist.exists_node (count_le_category _)
    have hgroup := (shaped_of_mem_productions q hq).varSpecList hhead'
    obtain ⟨vs, hgrouped, hreports⟩ := exists_grouped (· == .varSpecList) hgroup hts
    have hthrough : reportsIn content false (· == .varSpecList)
        [.node Category.varSpecList.code ts] = reportsIn content false (· == .varSpecList) ts := by
      rw [reportsIn, reportsIn, List.flatMap_singleton, specs, if_neg (by decide),
        if_pos (by decide), specsIn_eq]
    have htokens : tokens (.node (declarationCategory false).code
        [.leaf Terminal.kwVar.code start stop, .node Category.varSpecList.code ts]) =
          (Terminal.kwVar.code, start, stop) :: ts.flatMap tokens := by
      rw [tokens_leaf_cons, List.flatMap_singleton, tokens, tokensIn_eq]
    rw [reportsIn_leaf_cons, hthrough]
    exact ⟨vs, .group rfl hgrouped htokens, hreports⟩

/-- The value items among some items. -/
def valueItems (found : List TopLevel) : List (List Ident) :=
  found.filterMap fun
    | .value is => some is
    | _ => none

theorem mem_valueItems {is : List Ident} {found : List TopLevel} :
    is ∈ valueItems found ↔ .value is ∈ found := by
  rw [valueItems, List.mem_filterMap]
  constructor
  · rintro ⟨item, hitem, h⟩
    cases item with
    | value is' =>
        cases h
        exact hitem
    | function i => cases h
    | type i => cases h
    | other kind => cases h
  · intro h
    exact ⟨_, h, rfl⟩

theorem valueItems_append (found more : List TopLevel) :
    valueItems (found ++ more) = valueItems found ++ valueItems more :=
  List.filterMap_append

theorem valueItems_map_value (values : List (List Ident)) :
    valueItems (values.map .value) = values := by
  rw [valueItems, List.filterMap_map]
  exact List.filterMap_some

theorem topLevel_const (parts : List Tree) :
    topLevel content (.node Category.constDeclaration.code parts) =
      (reportsIn content true (fun _ => false) parts).map .value := by
  rw [topLevel, if_neg (by decide), if_neg (by decide), if_pos (by decide), reportsIn,
    List.map_map]
  rfl

theorem topLevel_var (parts : List Tree) :
    topLevel content (.node Category.varDeclaration.code parts) =
      (reportsIn content false (· == .varSpecList) parts).map .value := by
  rw [topLevel, if_neg (by decide), if_neg (by decide), if_neg (by decide), if_pos (by decide),
    reportsIn, List.map_map]
  rfl

theorem valueItems_of_leaf (s : Symbol) (start stop : Nat) :
    valueItems (topLevel content (.leaf s start stop)) = [] := by
  rw [topLevel]
  split_ifs <;> rfl

theorem valueItems_of_other {s : Symbol} (hconst : s ≠ Category.constDeclaration.code)
    (hvar : s ≠ Category.varDeclaration.code) (parts : List Tree) :
    valueItems (topLevel content (.node s parts)) = [] := by
  rw [topLevel]
  split
  · cases declaredName content parts <;> rfl
  · split
    · simp [valueItems, List.filterMap_filterMap]
    · rw [if_neg (by simpa [isCat] using hconst), if_neg (by simpa [isCat] using hvar)]
      split <;> rfl

/-- The specifications of an item of a file, and what is reported for them. -/
theorem exists_declares {t : Tree} (h : Derived tables (Reads content) t) :
    ∃ vs, Declares content t vs ∧
      valueItems (topLevel content t) = vs.map fun v => v.reported.map (identOf content) := by
  obtain ⟨s, h⟩ := h
  cases t with
  | leaf x start stop =>
      refine ⟨[], .none (by simp), ?_⟩
      rw [valueItems_of_leaf]
      rfl
  | node x parts =>
      have hx : s = x := by
        obtain ⟨a, b, h⟩ := h
        cases h
        rfl
      subst hx
      by_cases hconst : s = Category.constDeclaration.code
      · subst hconst
        obtain ⟨vs, hdeclares, hreports⟩ := exists_declares_const h
        exact ⟨vs, hdeclares, by rw [topLevel_const, valueItems_map_value, hreports]⟩
      · by_cases hvar : s = Category.varDeclaration.code
        · subst hvar
          obtain ⟨vs, hdeclares, hreports⟩ := exists_declares_var h
          exact ⟨vs, hdeclares, by rw [topLevel_var, valueItems_map_value, hreports]⟩
        · refine ⟨[], .none ?_, by rw [valueItems_of_other hconst hvar]; rfl⟩
          intro constant parts' hnode
          cases hnode
          cases constant with
          | true => exact hconst rfl
          | false => exact hvar rfl

end Declarations

section Names

variable {content : Bytes}

/-- A token of the kind of names is a name. -/
theorem isName_of_reads {a b : Nat} {k : Leaf} (h : Reads content a k b)
    (hk : k.1 = Terminal.identifier.code) : IsName (identOf content k).name.toList := by
  obtain ⟨s, start, stop⟩ := k
  obtain ⟨-, -, t, rfl, before, front, after, hstands⟩ := h
  obtain rfl := Terminal.code_injective hk
  rw [identOf, hstands.identAt_eq, String.toList_ofList]
  exact hstands.spelt.1 rfl

theorem name_of_comma {a b : Nat} {k : Leaf} (h : Reads content a k b)
    (hk : k.1 = Terminal.comma.code) : (identOf content k).name = "," := by
  obtain ⟨s, start, stop⟩ := k
  obtain ⟨-, -, t, rfl, before, front, after, hstands⟩ := h
  obtain rfl := Terminal.code_injective hk
  have hcomma : front = [','] := hstands.spelt.2 "," (by decide)
  rw [identOf, hstands.identAt_eq, hcomma]

theorem not_isName_comma : ¬IsName ",".toList := by
  rintro ⟨c, rest, hcs, hstart, -⟩
  cases hcs
  exact absurd hstart (by decide)

theorem ValueSpec.Formed.reads {v : ValueSpec} (h : v.Formed content) {k : Leaf}
    (hk : k ∈ v.tokens) : ∃ a b, Reads content a k b := by
  obtain ⟨t, ht, htokens⟩ := h
  rw [← htokens] at hk
  exact ht.reads hk

theorem Declares.formed {t : Tree} {vs : List ValueSpec} (h : Declares content t vs) :
    ∀ v ∈ vs, v.Formed content := by
  cases h with
  | one hword hconstant hformed htokens => simpa using hformed
  | group hword hgroup htokens =>
      cases hgroup with
      | mk hopening hclosing hmembers =>
          rw [List.forall_mem_map]
          exact fun m hm => (hmembers m hm).formed
  | none h => simp

theorem ValueSpec.name_of_mem_names {v : ValueSpec} {k : Leaf} (hk : k ∈ v.names) :
    k.1 = Terminal.identifier.code ∧ k ∈ v.tokens := by
  rw [names, List.mem_cons, List.mem_map] at hk
  rcases hk with rfl | ⟨x, hx, rfl⟩
  · exact ⟨v.first_name, List.mem_append_left _ List.mem_cons_self⟩
  · refine ⟨(v.more_names x hx).2, List.mem_append_left _ (List.mem_cons_of_mem _ ?_)⟩
    exact List.mem_flatMap.mpr ⟨x, hx, by simp⟩

theorem ValueSpec.Formed.isName {v : ValueSpec} (h : v.Formed content) {k : Leaf}
    (hk : k ∈ v.names) : IsName (identOf content k).name.toList := by
  obtain ⟨hcode, hmem⟩ := name_of_mem_names hk
  obtain ⟨a, b, hreads⟩ := h.reads hmem
  exact isName_of_reads hreads hcode

/-- Only names are reported for a specification exactly if it is not one of several
constants. -/
theorem ValueSpec.forall_isName_iff {v : ValueSpec} (hv : v.Formed content) :
    (∀ k ∈ v.reported, IsName (identOf content k).name.toList) ↔
      (v.constant = true → v.more = []) := by
  constructor
  · intro h hconstant
    by_contra hmore
    obtain ⟨x, rest, hx⟩ := List.exists_cons_of_ne_nil hmore
    have hmem : x.1 ∈ v.listed := by simp [listed, hx]
    have hname : IsName (identOf content x.1).name.toList :=
      h x.1 (by rwa [reported, if_pos hconstant])
    obtain ⟨a, b, hreads⟩ := hv.reads (List.mem_append_left _ hmem)
    rw [name_of_comma hreads (v.more_names x (by simp [hx])).1] at hname
    exact not_isName_comma hname
  · intro h
    rw [v.reported_eq_names_iff.mpr h]
    exact fun k hk => hv.isName hk

theorem isName_of_declaredName {children : List Tree}
    (h : ∀ t ∈ children, Derived tables (Reads content) t) {i : Ident}
    (hi : declaredName content children = some i) : IsName i.name.toList := by
  obtain ⟨a, b, k, hreads, hk, rfl⟩ := exists_of_declaredName h hi
  exact isName_of_reads hreads hk

/-- The names of an item are names, unless it is a value item. -/
theorem ReadFrom.isName {item : TopLevel} (h : ReadFrom content item) :
    (∃ is, item = .value is) ∨ ∀ x ∈ item.idents, IsName x.2.name.toList := by
  cases h with
  | other kind => exact Or.inr (by simp [TopLevel.idents])
  | function h hi => exact Or.inr (by simpa [TopLevel.idents] using isName_of_declaredName h hi)
  | type h hi => exact Or.inr (by simpa [TopLevel.idents] using isName_of_declaredName h hi)
  | value h hs => exact Or.inl ⟨_, rfl⟩

end Names

section Items

variable {content : Bytes}

theorem valueItems_itemsFrom (start : Nat) (trees : List Tree) :
    valueItems (itemsFrom content start trees) =
      trees.flatMap fun t => valueItems (topLevel content t) := by
  have hcomments : ∀ start stop, valueItems (commentItems content start stop) = [] := by
    intro start stop
    rw [commentItems, valueItems, List.filterMap_replicate]
  induction trees generalizing start with
  | nil => exact hcomments _ _
  | cons t rest ih =>
      rw [itemsFrom, valueItems_append, valueItems_append, hcomments, ih]
      rfl

mutual

/-- The items of a file make up the file. -/
theorem tokens_itemTrees : ∀ t : Tree, (itemTrees t).flatMap tokens = tokens t
  | .leaf s start stop => by
      rw [itemTrees, List.flatMap_singleton]
  | .node s children => by
      rw [itemTrees]
      split
      · rw [tokens_itemTreesIn children, tokens]
      · rw [List.flatMap_singleton]

theorem tokens_itemTreesIn :
    ∀ ts : List Tree, (itemTrees.itemTreesIn ts).flatMap tokens = tokens.tokensIn ts
  | [] => by
      rw [itemTrees.itemTreesIn, tokens.tokensIn]
      rfl
  | t :: rest => by
      rw [itemTrees.itemTreesIn, tokens.tokensIn, List.flatMap_append, tokens_itemTrees t,
        tokens_itemTreesIn rest]

end

/-- The declarations of names of one kind. -/
theorem declare_idents (file : Path) (kind : DeclKind) (is : List Ident) :
    ((is.map fun i => (kind, i)).filterMap fun (kind, i) =>
        if i.name = blankName then none else some (i.declare file kind)) =
      (is.filter fun i => i.name ≠ blankName).map (Ident.declare file kind) := by
  induction is with
  | nil => rfl
  | cons i is ih =>
      rw [List.map_cons, List.filterMap_cons, List.filter_cons, ih]
      by_cases hi : i.name = blankName
      · simp [hi]
      · simp [hi]

theorem declarations_cons (path : String) (item : TopLevel) (items : List TopLevel) :
    SourceTree.declarations ⟨path, item :: items⟩ =
      SourceTree.declarations ⟨path, [item]⟩ ++ SourceTree.declarations ⟨path, items⟩ := by
  simp [SourceTree.declarations]

/-- The declarations of values are those of value items. -/
theorem declarations_filter_value (path : String) (items : List TopLevel) :
    (SourceTree.declarations ⟨path, items⟩).filter (fun d => d.kind = .value) =
      ((valueItems items).flatten.filter fun i => i.name ≠ blankName).map
        (Ident.declare (Utf8.encode path) .value) := by
  induction items with
  | nil => rfl
  | cons item items ih =>
      rw [declarations_cons, List.filter_append, ih]
      cases item with
      | value is =>
          have hone : SourceTree.declarations ⟨path, [.value is]⟩ =
              (is.filter fun i => i.name ≠ blankName).map
                (Ident.declare (Utf8.encode path) .value) := by
            rw [← declare_idents, SourceTree.declarations, List.flatMap_singleton]
            rfl
          have hkind : ∀ d ∈ SourceTree.declarations ⟨path, [.value is]⟩,
              decide (d.kind = .value) = true := by
            rw [hone, List.forall_mem_map]
            exact fun i _ => rfl
          rw [List.filter_eq_self.mpr hkind, hone, ← List.map_append, ← List.filter_append]
          rfl
      | function i =>
          by_cases hi : i.name = blankName <;>
            simp [SourceTree.declarations, TopLevel.idents, Ident.declare, valueItems, hi]
      | type i =>
          by_cases hi : i.name = blankName <;>
            simp [SourceTree.declarations, TopLevel.idents, Ident.declare, valueItems, hi]
      | other kind => rfl

/-- **What is reported for values.** The parser makes one tree of an accepted source, which
takes in all of it, and the items are those of the tree. Each value item reports one
specification of a declaration of constants or variables, in order: its names, but with the
commas between them if it is one of constants. So exactly the names that are declared are
reported, if no specification of constants has several; all names that are reported are
names exactly in this case. The declarations of values are what is reported, without blank
names. -/
theorem values_of_source (path : String) (content : Bytes) :
    match parseSource path content with
    | .error _ => True
    | .ok tree =>
        ∃ (file : Tree) (declared : List (List ValueSpec)),
          fileOf content = .ok file ∧ Spans content file ∧
          tree.items =
            itemsFrom content (startOf (Utf8.lossy content).toList).offset (itemTrees file) ∧
          tokens file = (itemTrees file).flatMap tokens ∧
          List.Forall₂ (Declares content) (itemTrees file) declared ∧
          valueItems tree.items =
            declared.flatten.map (fun v => v.reported.map (identOf content)) ∧
          (∀ v ∈ declared.flatten, (∀ k ∈ v.names, IsName (identOf content k).name.toList) ∧
            (v.reported = v.names ↔ (v.constant = true → v.more = []))) ∧
          ((∀ item ∈ tree.items, ∀ x ∈ item.idents, IsName x.2.name.toList) ↔
            ∀ v ∈ declared.flatten, v.constant = true → v.more = []) ∧
          tree.declarations.filter (fun d => d.kind = .value) =
            ((declared.flatten.flatMap fun v => v.reported.map (identOf content)).filter
              fun i => i.name ≠ blankName).map (Ident.declare (Utf8.encode path) .value) := by
  cases hparse : parseSource path content with
  | error fault => trivial
  | ok tree =>
      obtain ⟨hpath, hitems⟩ := parseSource_eq_ok hparse
      obtain ⟨-, file, hfile, hspans, hfound⟩ := exists_spans hitems
      have htrees : ∀ t ∈ itemTrees file, Derived tables (Reads content) t :=
        derived_itemTrees file ⟨_, _, _, hspans.mono Follows.reads⟩
      have hdeclares : ∀ t ∈ itemTrees file, ∃ vs, Declares content t vs ∧
          valueItems (topLevel content t) = vs.map fun v => v.reported.map (identOf content) :=
        fun t ht => exists_declares (htrees t ht)
      choose! specsOf hspecs hreports using hdeclares
      have hvalues : valueItems tree.items =
          ((itemTrees file).map specsOf).flatten.map fun v => v.reported.map (identOf content) := by
        rw [hfound, valueItems_itemsFrom, List.map_flatten, List.map_map, List.flatMap_def]
        exact congrArg List.flatten (List.map_congr_left hreports)
      have hformed : ∀ v ∈ ((itemTrees file).map specsOf).flatten, v.Formed content := by
        intro v hv
        obtain ⟨vs, hvs, hv⟩ := List.mem_flatten.mp hv
        obtain ⟨t, ht, rfl⟩ := List.mem_map.mp hvs
        exact (hspecs t ht).formed v hv
      refine ⟨file, (itemTrees file).map specsOf, hfile, hspans, hfound,
        (tokens_itemTrees file).symm, ?_, hvalues, ?_, ?_, ?_⟩
      · rw [List.forall₂_map_right_iff, List.forall₂_same]
        exact hspecs
      · exact fun v hv => ⟨fun k hk => (hformed v hv).isName hk, v.reported_eq_names_iff⟩
      · constructor
        · intro h v hv
          rw [← ValueSpec.forall_isName_iff (hformed v hv)]
          intro k hk
          have hitem : TopLevel.value (v.reported.map (identOf content)) ∈ tree.items := by
            rw [← mem_valueItems, hvalues]
            exact List.mem_map_of_mem hv
          exact h _ hitem (.value, identOf content k)
            (List.mem_map_of_mem (List.mem_map_of_mem hk))
        · intro h item hitem x hx
          rw [hfound] at hitem
          rcases (readFrom_itemsFrom htrees item hitem).isName with ⟨is, rfl⟩ | hnamed
          · rw [← hfound, ← mem_valueItems, hvalues] at hitem
            obtain ⟨v, hv, rfl⟩ := List.mem_map.mp hitem
            obtain ⟨i, hi, rfl⟩ := List.mem_map.mp hx
            obtain ⟨k, hk, rfl⟩ := List.mem_map.mp hi
            exact (ValueSpec.forall_isName_iff (hformed v hv)).mpr (h v hv) k hk
          · exact hnamed x hx
      · have hdeclarations := declarations_filter_value tree.path tree.items
        rw [hvalues, ← List.flatMap_def] at hdeclarations
        rwa [← hpath]

end Items

end Go
end GoTags
