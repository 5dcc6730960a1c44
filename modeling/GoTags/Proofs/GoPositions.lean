import GoTags.Proofs.GoNesting

/-!
# Where the names of a source stand

**Input.** The bytes of a Go file.

**Algorithm.** The tokens of a file are read one after the other, and names are taken from
some of them, in order and only outside braces.

**Results.**
* `readsAll_tokens`: the tokens of a tree are read one after the other.
* `ReadsAll.pairwise`: so they stand in the content in their order.
* `names_in_order`: the names of a source stand in it in order, each where it says.
* `names_outside_braces`: no name of a source stands inside braces.
-/

namespace GoTags
namespace Go

open Grammar

section Order

/-- Tokens that are read one after the other between two offsets. -/
inductive ReadsAll (R : Reading) : Nat → List Leaf → Nat → Prop
  | nil {a : Nat} : ReadsAll R a [] a
  | cons {a b c : Nat} {k : Leaf} {ks : List Leaf} (h : R a k b) (hrest : ReadsAll R b ks c) :
      ReadsAll R a (k :: ks) c

variable {g : Tables} {R : Reading} {content : Bytes}

theorem ReadsAll.append {a b c : Nat} {ks ls : List Leaf} (h : ReadsAll R a ks b)
    (h' : ReadsAll R b ls c) : ReadsAll R a (ks ++ ls) c := by
  induction h with
  | nil => exact h'
  | cons hk _ ih => exact .cons hk (ih h')

mutual

/-- The tokens of a tree are read one after the other. -/
theorem readsAll_tokens : ∀ (t : Tree) {s : Symbol} {a b : Nat}, Derives g R s a t b →
    ReadsAll R a (tokens t) b
  | .leaf _ _ _, s, a, b, h => by
      cases h with
      | leaf h => exact .cons h .nil
  | .node _ children, s, a, b, h => by
      cases h with
      | node hp hall => exact readsAll_tokensIn children hall

theorem readsAll_tokensIn : ∀ (ts : List Tree) {symbols : List Symbol} {a b : Nat},
    DerivesAll g R symbols a ts b → ReadsAll R a (tokens.tokensIn ts) b
  | [], _, _, _, h => by
      cases h
      exact .nil
  | t :: rest, _, _, _, h => by
      cases h with
      | cons h hrest => exact (readsAll_tokens t h).append (readsAll_tokensIn rest hrest)

end

/-- A token stands between the offsets around it. -/
theorem Reads.le {a b : Nat} {k : Leaf} (h : Reads content a k b) :
    a ≤ k.2.1 ∧ k.2.1 ≤ k.2.2 ∧ k.2.2 = b := by
  obtain ⟨s, start, stop⟩ := k
  obtain ⟨hstart, hstop, t, -, before, front, after, hstands⟩ := h
  exact ⟨hstart, Nat.le.intro hstands.stop_eq.symm, hstop⟩

theorem ReadsAll.le {a b : Nat} {ks : List Leaf} (h : ReadsAll (Reads content) a ks b) :
    ∀ k ∈ ks, a ≤ k.2.1 ∧ k.2.1 ≤ k.2.2 := by
  induction h with
  | nil => simp
  | cons hk _ ih =>
      obtain ⟨hstart, hstop, hb⟩ := hk.le
      rw [List.forall_mem_cons]
      refine ⟨⟨hstart, hstop⟩, ?_⟩
      intro l hl
      obtain ⟨hstart', hstop'⟩ := ih l hl
      exact ⟨by omega, hstop'⟩

/-- Tokens that are read one after the other stand in order. -/
theorem ReadsAll.pairwise {a b : Nat} {ks : List Leaf} (h : ReadsAll (Reads content) a ks b) :
    ks.Pairwise fun k l => k.2.2 ≤ l.2.1 ∧ l.2.1 ≤ l.2.2 := by
  induction h with
  | nil => exact .nil
  | cons hk hrest ih =>
      refine .cons ?_ ih
      intro l hl
      rw [hk.le.2.2]
      exact hrest.le l hl

theorem ReadsAll.pairwise_stop {a b : Nat} {ks : List Leaf}
    (h : ReadsAll (Reads content) a ks b) : ks.Pairwise fun k l => k.2.2 ≤ l.2.2 :=
  h.pairwise.imp fun hkl => hkl.1.trans hkl.2

/-- The tokens that end at an offset or before. -/
def tokensBefore (offset : Nat) (ks : List Leaf) : List Leaf :=
  ks.filter fun k => k.2.2 ≤ offset

theorem tokensBefore_append {offset : Nat} {before after : List Leaf}
    (hbefore : ∀ k ∈ before, k.2.2 ≤ offset) (hafter : ∀ k ∈ after, offset < k.2.2) :
    tokensBefore offset (before ++ after) = before := by
  have hkept : ∀ k ∈ before, decide (k.2.2 ≤ offset) = true :=
    fun k hk => decide_eq_true (hbefore k hk)
  have hdropped : ∀ k ∈ after, ¬decide (k.2.2 ≤ offset) = true := by
    intro k hk
    rw [decide_eq_true_iff, Nat.not_le]
    exact hafter k hk
  rw [tokensBefore, List.filter_append, List.filter_eq_self.mpr hkept,
    List.filter_eq_nil_iff.mpr hdropped, List.append_nil]

/-- The tokens before a token are those that end where it starts or before. -/
theorem tokensBefore_eq {a b : Nat} {k : Leaf} {before after : List Leaf}
    (h : ReadsAll (Reads content) a (before ++ k :: after) b) (hk : k.2.1 < k.2.2) :
    tokensBefore k.2.1 (before ++ k :: after) = before := by
  have horder := h.pairwise
  rw [List.pairwise_append, List.pairwise_cons] at horder
  obtain ⟨-, ⟨hafter, -⟩, hbefore⟩ := horder
  refine tokensBefore_append (fun l hl => (hbefore l hl k List.mem_cons_self).1) ?_
  rw [List.forall_mem_cons]
  refine ⟨hk, ?_⟩
  intro l hl
  have hkl := hafter l hl
  omega

/-- Tokens in order are cut by an offset. -/
theorem exists_append_of_pairwise {ks : List Leaf} (h : ks.Pairwise fun k l => k.2.2 ≤ l.2.2)
    (offset : Nat) :
    ∃ before after, ks = before ++ after ∧ (∀ k ∈ before, k.2.2 ≤ offset) ∧
      ∀ k ∈ after, offset < k.2.2 := by
  induction h with
  | nil => exact ⟨[], [], rfl, by simp, by simp⟩
  | @cons k ks hk _ ih =>
      by_cases hstop : k.2.2 ≤ offset
      · obtain ⟨before, after, rfl, hbefore, hafter⟩ := ih
        exact ⟨k :: before, after, rfl, List.forall_mem_cons.mpr ⟨hstop, hbefore⟩, hafter⟩
      · have hstop := Nat.lt_of_not_le hstop
        refine ⟨[], k :: ks, rfl, by simp, List.forall_mem_cons.mpr ⟨hstop, ?_⟩⟩
        exact fun l hl => hstop.trans_le (hk l hl)

/-- An offset that stands between an opening brace and the one that closes it. -/
def InBraces (ks : List Leaf) (offset : Nat) : Prop :=
  ∃ before opening inside closing after, ks = before ++ opening :: (inside ++ closing :: after) ∧
    opening.1 = Terminal.lbrace.code ∧ closing.1 = Terminal.rbrace.code ∧ Balanced inside ∧
    opening.2.2 ≤ offset ∧ offset < closing.2.2

/-- Where the tokens before are balanced, no braces stand around. -/
theorem not_inBraces {a b offset : Nat} {ks : List Leaf} (h : ReadsAll (Reads content) a ks b)
    (hbalanced : Balanced (tokensBefore offset ks)) : ¬InBraces ks offset := by
  rintro ⟨before, opening, inside, closing, after, rfl, hopening, -, hinside, hstart, hstop⟩
  have horder := h.pairwise_stop
  rw [List.pairwise_append, List.pairwise_cons, List.pairwise_append, List.pairwise_cons] at horder
  obtain ⟨-, ⟨-, horder, ⟨hafter, -⟩, -⟩, hbefore⟩ := horder
  -- the offset cuts the tokens between the braces in two, and the brace is open at the cut
  obtain ⟨passed, ahead, rfl, hpassed, hahead⟩ := exists_append_of_pairwise horder offset
  have hfront : ∀ k ∈ before ++ opening :: passed, k.2.2 ≤ offset := by
    rw [List.forall_mem_append, List.forall_mem_cons]
    exact ⟨fun k hk => (hbefore k hk opening List.mem_cons_self).trans hstart, hstart, hpassed⟩
  have hrest : ∀ k ∈ ahead ++ closing :: after, offset < k.2.2 := by
    rw [List.forall_mem_append, List.forall_mem_cons]
    exact ⟨hahead, hstop, fun k hk => hstop.trans_le (hafter k hk)⟩
  have hsplit : before ++ opening :: (passed ++ ahead ++ closing :: after) =
      (before ++ opening :: passed) ++ (ahead ++ closing :: after) := by
    simp
  rw [hsplit, tokensBefore_append hfront hrest] at hbalanced
  exact not_balanced_of_opening hopening hinside hbalanced

end Order

section Sources

variable {content : Bytes}

/-- The names of a file that is accepted are read from its tokens outside braces. -/
theorem exists_picked {found : List TopLevel} (h : items content = .ok found) :
    ∃ file, fileOf content = .ok file ∧ Spans content file ∧
      found = itemsFrom content (startOf (Utf8.lossy content).toList).offset (itemTrees file) ∧
      Picked content (outside 0 (tokens file)) (identsIn found) := by
  obtain ⟨-, file, hfile, hspans, rfl⟩ := exists_spans h
  exact ⟨file, hfile, hspans, rfl, picked_itemsFrom _ ⟨_, _, _, hspans.mono Follows.reads⟩⟩

/-- A token that is taken for a name is not empty. -/
theorem lt_of_reads {a b : Nat} {k : Leaf} (h : Reads content a k b)
    (hk : k.1 = Terminal.identifier.code ∨ k.1 = Terminal.comma.code) : k.2.1 < k.2.2 := by
  obtain ⟨before, after, hplaced⟩ := placed_of_reads h hk
  by_contra hle
  refine hplaced.name_ne ?_
  rw [identAt, Nat.sub_eq_zero_of_le (Nat.le_of_not_lt hle), List.take_zero]
  rfl

theorem Spans.readsAll {file : Tree} (h : Spans content file) :
    ReadsAll (Reads content) (startOf (Utf8.lossy content).toList).offset (tokens file)
      content.length :=
  readsAll_tokens file (h.mono Follows.reads)

theorem Spans.parsed {file : Tree} (h : Spans content file) : Parsed content spec.start file :=
  ⟨_, _, h.mono Follows.reads⟩

/-- The names that are taken from tokens stand in the order of the tokens. -/
theorem Spans.pairwise_byteOffset {file : Tree} (h : Spans content file) {is : List Ident}
    (hpicked : Picked content (outside 0 (tokens file)) is) :
    (is.map Ident.byteOffset).Pairwise (· < ·) := by
  obtain ⟨taken, htaken, rfl, hcodes⟩ := hpicked
  have htokens := htaken.trans (outside_sublist 0 (tokens file))
  rw [List.map_map, List.pairwise_map]
  refine (h.readsAll.pairwise.sublist htokens).imp_of_mem ?_
  intro k l hk _ hkl
  obtain ⟨a, b, hreads⟩ := h.parsed.reads (htokens.subset hk)
  exact (lt_of_reads hreads (hcodes k hk)).trans_le hkl.1

/-- The tokens before a name that is taken outside braces are balanced. -/
theorem Spans.balanced_tokensBefore {file : Tree} (h : Spans content file) {is : List Ident}
    (hpicked : Picked content (outside 0 (tokens file)) is) {i : Ident} (hi : i ∈ is) :
    Balanced (tokensBefore i.byteOffset (tokens file)) := by
  obtain ⟨taken, htaken, rfl, hcodes⟩ := hpicked
  obtain ⟨k, hk, rfl⟩ := List.mem_map.mp hi
  obtain ⟨before, after, htokens, hdepth⟩ := exists_of_mem_outside (htaken.subset hk)
  obtain ⟨a, b, hreads⟩ := h.parsed.reads ((htaken.trans (outside_sublist 0 _)).subset hk)
  have hall := h.readsAll
  rw [htokens] at hall ⊢
  rw [Balanced, identOf, identAt, tokensBefore_eq hall (lt_of_reads hreads (hcodes k hk))]
  exact hdepth

/-- A name in its place is read back between its offset and its end. -/
theorem Placed.reads_back {i : Ident} {before after : String} (h : Placed content i before after) :
    i.byteOffset + (Utf8.encode i.name).length ≤ content.length ∧
      (content.drop i.byteOffset).take (Utf8.encode i.name).length = Utf8.encode i.name ∧
      i.line = 1 + (content.take i.byteOffset).count Bytes.newline := by
  rw [h.line_eq, h.byteOffset_eq, h.content_eq, List.append_assoc, List.drop_left, List.take_left,
    List.take_left, List.length_append, List.length_append, Nat.add_comm 1]
  exact ⟨by omega, rfl, rfl⟩

end Sources

section Declared

/-- The name of a declaration and where it stands. -/
def nameOf (d : Declaration) : Ident :=
  ⟨d.name, d.line, d.byteOffset⟩

/-- The declarations of a source are its names, without blank ones. -/
theorem nameOf_declarations (tree : SourceTree) :
    tree.declarations.map nameOf = (identsIn tree.items).filter fun i => i.name ≠ blankName := by
  rw [SourceTree.declarations, identsIn]
  generalize tree.items.flatMap TopLevel.idents = named
  induction named with
  | nil => rfl
  | cons x named ih =>
      obtain ⟨kind, i⟩ := x
      by_cases hi : i.name = blankName
      · simpa [hi] using ih
      · simpa [hi, nameOf, Ident.declare] using ih

/-- No two declarations of a source stand at one offset. -/
theorem nodup_byteOffset {content : Bytes} {tree : SourceTree}
    (h : items content = .ok tree.items) :
    (tree.declarations.map Declaration.byteOffset).Nodup := by
  obtain ⟨file, -, hspans, -, hpicked⟩ := exists_picked h
  have hsublist : (tree.declarations.map Declaration.byteOffset).Sublist
      ((identsIn tree.items).map Ident.byteOffset) := by
    have hnames : tree.declarations.map Declaration.byteOffset =
        (tree.declarations.map nameOf).map Ident.byteOffset := by
      rw [List.map_map]
      rfl
    rw [hnames, nameOf_declarations]
    exact List.filter_sublist.map _
  exact ((hspans.pairwise_byteOffset hpicked).sublist hsublist).imp Nat.ne_of_lt

/-- **Names stand in order.** The names of an accepted source, in the order of its tree, have
growing offsets; each is what the content holds at its offset, and its line counts the
newlines before. The declarations are the names that are not blank, in the same order. -/
theorem names_in_order (path : String) (content : Bytes) :
    match parseSource path content with
    | .error _ => True
    | .ok tree =>
        ((identsIn tree.items).map Ident.byteOffset).Pairwise (· < ·) ∧
        (∀ i ∈ identsIn tree.items,
          i.byteOffset + (Utf8.encode i.name).length ≤ content.length ∧
          (content.drop i.byteOffset).take (Utf8.encode i.name).length = Utf8.encode i.name ∧
          i.line = 1 + (content.take i.byteOffset).count Bytes.newline) ∧
        tree.declarations.map nameOf =
          (identsIn tree.items).filter fun i => i.name ≠ blankName := by
  cases hparse : parseSource path content with
  | error fault => trivial
  | ok tree =>
      obtain ⟨-, hitems⟩ := parseSource_eq_ok hparse
      obtain ⟨file, -, hspans, -, hpicked⟩ := exists_picked hitems
      refine ⟨hspans.pairwise_byteOffset hpicked, ?_, nameOf_declarations tree⟩
      intro i hi
      obtain ⟨x, hx, rfl⟩ := List.mem_map.mp hi
      obtain ⟨item, hitem, hx⟩ := List.mem_flatMap.mp hx
      obtain ⟨before, after, hplaced⟩ := (items_placed hitems).2 item hitem x hx
      exact hplaced.reads_back

/-- **No name inside braces.** The items of an accepted source are those of its tree, and the
tree takes in all of its tokens. In front of every name in the items the braces among
the tokens are balanced, so no name stands between a brace and the one that closes it. -/
theorem names_outside_braces (path : String) (content : Bytes) :
    match parseSource path content with
    | .error _ => True
    | .ok tree =>
        ∃ file, fileOf content = .ok file ∧ Spans content file ∧
          tree.items =
            itemsFrom content (startOf (Utf8.lossy content).toList).offset (itemTrees file) ∧
          ∀ i ∈ identsIn tree.items,
            Balanced (tokensBefore i.byteOffset (tokens file)) ∧
            ¬InBraces (tokens file) i.byteOffset := by
  cases hparse : parseSource path content with
  | error fault => trivial
  | ok tree =>
      obtain ⟨-, hitems⟩ := parseSource_eq_ok hparse
      obtain ⟨file, hfile, hspans, hfound, hpicked⟩ := exists_picked hitems
      refine ⟨file, hfile, hspans, hfound, ?_⟩
      intro i hi
      have hbalanced := hspans.balanced_tokensBefore hpicked hi
      exact ⟨hbalanced, not_inBraces hspans.readsAll hbalanced⟩

end Declared

end Go
end GoTags
