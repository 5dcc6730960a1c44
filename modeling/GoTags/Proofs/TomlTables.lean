import GoTags.Config
import Mathlib.Data.List.TakeWhile

/-!
# Documents of tables of texts

Documents that hold nothing but tables with a header each, the fields of which are texts
in quotes. Such a document is read as just these tables.

**Input.** Tables with a name and fields; a field has a key and a text that needs no
escaping.

**Algorithm.** The characters of the tables are taken off in front one line at a time,
whatever follows them; the lines are then put together one table at a time, whatever
entries there are already, as long as the names are new.

**Results.**
* `string?_quoted`: a text in quotes is read back.
* `line?_fieldLine`, `line?_header`: the line of a field is a pair, and a header a table.
* `ReadsAs.table`: the characters of a table are read as its lines.
* `Entries.addPairs_fields`, `addSections_tables`: new fields and new tables are added
  behind what is there.
* `read_of_readsAs`: a text that is read as the lines of tables is a document of them.
-/

namespace GoTags
namespace Toml

section Characters

/-- The characters that stand for themselves in a string with escapes. -/
def isUnescaped (c : Char) : Bool :=
  isPlain c && c ≠ '"' && c ≠ '\\'

/-- A text that needs no escaping in quotes. -/
def Unescaped (text : String) : Prop :=
  ∀ c ∈ text.toList, isUnescaped c = true

instance (text : String) : Decidable (Unescaped text) :=
  decidable_of_iff (text.toList.all isUnescaped = true) List.all_eq_true

/-- A key that needs no quotes. -/
def IsBareKey (key : String) : Prop :=
  key.toList ≠ [] ∧ ∀ c ∈ key.toList, isBare c = true

instance (key : String) : Decidable (IsBareKey key) :=
  decidable_of_iff (key.toList ≠ [] ∧ key.toList.all isBare = true)
    (and_congr_right' List.all_eq_true)

theorem IsBareKey.exists_cons {key : String} (h : IsBareKey key) :
    ∃ c cs, key.toList = c :: cs ∧ isBare c = true := by
  obtain ⟨c, cs, hc⟩ := List.exists_cons_of_ne_nil h.1
  exact ⟨c, cs, hc, h.2 c (by simp [hc])⟩

theorem isUnescaped_iff {c : Char} :
    isUnescaped c = true ↔ isPlain c = true ∧ c ≠ '"' ∧ c ≠ '\\' := by
  simp [isUnescaped, and_assoc]

theorem ne_of_isBare {c d : Char} (h : isBare c = true) (hd : isBare d = false) : c ≠ d := by
  rintro rfl
  rw [h] at hd
  cases hd

theorem not_isBlank_of_isBare {c : Char} (h : isBare c = true) : isBlank c = false := by
  have hspace : c ≠ ' ' := ne_of_isBare h (by decide)
  have htab : c ≠ '\t' := ne_of_isBare h (by decide)
  simp [isBlank, hspace, htab]

theorem skipBlanks_cons {c : Char} (h : isBlank c = false) (cs : List Char) :
    skipBlanks (c :: cs) = c :: cs :=
  List.dropWhile_cons_of_neg (by simp [h])

theorem skipBlanks_space (cs : List Char) : skipBlanks (' ' :: cs) = skipBlanks cs := rfl

end Characters

section Strings

theorem basic?_cons {c : Char} (h : isUnescaped c = true) (cs : List Char) :
    basic? (c :: cs) = (basic? cs).map fun (text, after) => (c :: text, after) := by
  obtain ⟨hplain, hquote, hslash⟩ := isUnescaped_iff.mp h
  rw [basic?.eq_def]
  split <;> simp_all

theorem basic?_tab (cs : List Char) :
    basic? ('\\' :: 't' :: cs) = (basic? cs).map fun (text, after) => ('\t' :: text, after) := by
  rw [basic?]
  · cases basic? cs <;> rfl
  -- the letter is not that of an escape by number
  · simp
  · simp

/-- A tab is the only character that needs no escaping and is escaped. -/
theorem quoteChar_eq {c : Char} (h : isUnescaped c = true) :
    Config.quoteChar c = if c = '\t' then ['\\', 't'] else [c] := by
  obtain ⟨hplain, hquote, hslash⟩ := isUnescaped_iff.mp h
  rw [Config.quoteChar, if_neg hquote, if_neg hslash, if_pos hplain]

/-- A character that needs no escaping is read back. -/
theorem basic?_quoteChar {c : Char} (h : isUnescaped c = true) (cs : List Char) :
    basic? (Config.quoteChar c ++ cs) =
      (basic? cs).map fun (text, after) => (c :: text, after) := by
  rw [quoteChar_eq h]
  split
  · rename_i htab
    rw [htab]
    exact basic?_tab cs
  · exact basic?_cons h cs

theorem basic?_quoted {text : List Char} (h : ∀ c ∈ text, isUnescaped c = true)
    (rest : List Char) :
    basic? (text.flatMap Config.quoteChar ++ '"' :: rest) = some (text, rest) := by
  induction text with
  | nil => rfl
  | cons c text ih =>
      rw [List.forall_mem_cons] at h
      rw [List.flatMap_cons, List.append_assoc, basic?_quoteChar h.1, ih h.2]
      rfl

/-- A quote that is not followed by two others opens a string on one line. -/
theorem string?_of_basic {cs : List Char} (h : ∀ more, cs ≠ '"' :: '"' :: more) :
    string? ('"' :: cs) = basic? cs := by
  rw [string?.eq_def]
  split <;> simp_all

/-- A text in quotes is read back, unless a third quote follows. -/
theorem string?_quoted {text : List Char} (h : ∀ c ∈ text, isUnescaped c = true)
    {rest : List Char} (hrest : rest.head? ≠ some '"') :
    string? ('"' :: (text.flatMap Config.quoteChar ++ '"' :: rest)) = some (text, rest) := by
  rw [string?_of_basic, basic?_quoted h]
  intro more heq
  cases text with
  | nil => exact hrest (by rw [(List.cons.inj heq).2]; rfl)
  | cons c text =>
      rw [List.forall_mem_cons] at h
      obtain ⟨-, hquote, -⟩ := isUnescaped_iff.mp h.1
      rw [List.flatMap_cons, quoteChar_eq h.1] at heq
      split at heq
      · cases heq
      · exact hquote (List.cons.inj heq).1

end Strings

section Keys

/-- A key without quotes is read up to what cannot belong to it. -/
theorem keyPart?_bare {key : List Char} (hne : key ≠ []) (hbare : ∀ c ∈ key, isBare c = true)
    {after : List Char} (hafter : ∀ c ∈ after.head?, isBare c = false) :
    keyPart? (key ++ after) = some (key, after) := by
  have htake : (key ++ after).takeWhile isBare = key := by
    rw [List.takeWhile_append_of_pos hbare]
    cases after with
    | nil => simp
    | cons c after => simp [hafter c (by simp)]
  have hdrop : (key ++ after).dropWhile isBare = after := by
    rw [List.dropWhile_append_of_pos hbare]
    cases after with
    | nil => rfl
    | cons c after => simp [hafter c (by simp)]
  obtain ⟨c, key, rfl⟩ := List.exists_cons_of_ne_nil hne
  rw [List.forall_mem_cons] at hbare
  have hquote : c ≠ '"' := ne_of_isBare hbare.1 (by decide)
  have hliteral : c ≠ '\'' := ne_of_isBare hbare.1 (by decide)
  rw [keyPart?.eq_def]
  split
  · rename_i heq
    exact absurd (List.cons.inj heq).1 hquote
  · rename_i heq
    exact absurd (List.cons.inj heq).1 hliteral
  · rw [htake, hdrop]

/-- A key of one part is read up to the blanks behind it. -/
theorem key?_bare {key : String} (hkey : IsBareKey key) {c d : Char} {cs rest : List Char}
    (hc : isBare c = false) (hskip : skipBlanks (c :: cs) = d :: rest) (hd : d ≠ '.') {fuel : Nat}
    (hfuel : fuel ≠ 0) : key? fuel (key.toList ++ c :: cs) = some ([key], d :: rest) := by
  have hfront : skipBlanks (key.toList ++ c :: cs) = key.toList ++ c :: cs := by
    obtain ⟨b, bs, hbs, hb⟩ := hkey.exists_cons
    rw [hbs]
    exact skipBlanks_cons (not_isBlank_of_isBare hb) (bs ++ c :: cs)
  have hpart : keyPart? (key.toList ++ c :: cs) = some (key.toList, c :: cs) :=
    keyPart?_bare hkey.1 hkey.2 (by simpa using hc)
  obtain ⟨fuel, rfl⟩ := Nat.exists_eq_succ_of_ne_zero hfuel
  rw [key?, hfront, hpart]
  dsimp only
  rw [hskip]
  split
  · rename_i heq
    exact absurd (List.cons.inj heq).1 hd
  · rw [String.ofList_toList]

end Keys

section Lines

/-- A text in quotes is read as a value. -/
theorem value?_quoted {text : String} (h : Unescaped text) {rest : List Char}
    (hrest : rest.head? ≠ some '"') (depth : Nat) :
    value? depth ('"' :: (text.toList.flatMap Config.quoteChar ++ '"' :: rest)) =
      some (.string text, rest) := by
  have hflat : ∀ cs, value? depth ('"' :: cs) =
      (string? ('"' :: cs)).map fun (text, rest) => (.string (String.ofList text), rest) := by
    intro cs
    cases depth <;> rfl
  rw [hflat, string?_quoted h hrest, Option.map_some]
  dsimp only
  rw [String.ofList_toList]

theorem toList_fieldLine (name text : String) :
    (Config.fieldLine name text).toList = name.toList ++ ' ' :: '=' :: ' ' :: '"' ::
      (text.toList.flatMap Config.quoteChar ++ ['"', '\n']) := by
  simp [Config.fieldLine, Config.quote]

/-- The line of a field is read as a pair. -/
theorem line?_fieldLine {name text : String} (hname : IsBareKey name) (htext : Unescaped text)
    (rest : List Char) :
    line? ((Config.fieldLine name text).toList ++ rest) =
      some (.pair [] name (.string text), rest) := by
  have hcs : (Config.fieldLine name text).toList ++ rest = name.toList ++ ' ' :: '=' :: ' ' :: '"' ::
      (text.toList.flatMap Config.quoteChar ++ '"' :: '\n' :: rest) := by
    simp [toList_fieldLine]
  have hkey : key? depthLimit ((Config.fieldLine name text).toList ++ rest) =
      some ([name], '=' :: ' ' :: '"' ::
        (text.toList.flatMap Config.quoteChar ++ '"' :: '\n' :: rest)) := by
    rw [hcs]
    exact key?_bare hname (by decide) rfl (by decide) (by decide)
  have hvalue : value? depthLimit
      ('"' :: (text.toList.flatMap Config.quoteChar ++ '"' :: '\n' :: rest)) =
        some (.string text, '\n' :: rest) :=
    value?_quoted htext (by simp) depthLimit
  have hpair : pair? (value? depthLimit) ((Config.fieldLine name text).toList ++ rest) =
      some (([], name, .string text), '\n' :: rest) := by
    simp only [pair?, hkey, skipBlanks_space, skipBlanks_cons (c := '"') (by decide), hvalue,
      Option.map_some]
    rfl
  have hhead : ∀ more, (Config.fieldLine name text).toList ++ rest ≠ '[' :: more := by
    obtain ⟨c, cs, hc, hbare⟩ := hname.exists_cons
    intro more heq
    rw [hcs, hc] at heq
    exact ne_of_isBare hbare (by decide) (List.cons.inj heq).1
  rw [line?.eq_def]
  split
  · exact absurd ‹_› (hhead _)
  · rw [hpair]
    rfl

/-- A header is read as a table. -/
theorem line?_header {name : String} (hname : IsBareKey name) (rest : List Char) :
    line? ('[' :: (name.toList ++ ']' :: '\n' :: rest)) = some (.table [name], rest) := by
  have hkey : key? depthLimit (name.toList ++ ']' :: '\n' :: rest) =
      some ([name], ']' :: '\n' :: rest) :=
    key?_bare hname (by decide) rfl (by decide) (by decide)
  have hheader : header? (name.toList ++ ']' :: '\n' :: rest) =
      some (.table [name], '\n' :: rest) := by
    obtain ⟨c, cs, hc, hbare⟩ := hname.exists_cons
    have hbracket : c ≠ '[' := ne_of_isBare hbare (by decide)
    rw [header?.eq_def]
    split
    · rename_i heq
      rw [hc] at heq
      exact absurd (List.cons.inj heq).1 hbracket
    · simp only [hkey]
  simp only [line?, hheader]
  rfl

end Lines

section Texts

/-- A text is read as lines, in order, once there is fuel for all of its characters. -/
def ReadsAs (cs : List Char) (found : List Line) : Prop :=
  ∀ fuel, cs.length < fuel →
    ∃ numbered, lines fuel cs = .ok numbered ∧ numbered.map Prod.fst = found

theorem readsAs_nil : ReadsAs [] [] := by
  intro fuel hfuel
  cases fuel with
  | zero => cases hfuel
  | succ fuel => exact ⟨[], rfl, rfl⟩

variable {rest : List Char} {found : List Line}

/-- An empty line counts for nothing. -/
theorem ReadsAs.blank (h : ReadsAs rest found) : ReadsAs ('\n' :: rest) found := by
  intro fuel hfuel
  cases fuel with
  | zero => cases hfuel
  | succ fuel => exact h fuel (Nat.lt_of_succ_lt_succ hfuel)

/-- A line that holds more than a comment is read, and then the others. -/
theorem ReadsAs.cons (h : ReadsAs rest found) {c : Char} {cs : List Char} {line : Line}
    (hc : c ∉ [' ', '\t', '#', '\n', '\r']) (hline : line? (c :: cs) = some (line, rest))
    (hlength : rest.length < (c :: cs).length) : ReadsAs (c :: cs) (line :: found) := by
  simp only [List.mem_cons, List.not_mem_nil, or_false, not_or] at hc
  obtain ⟨hspace, htab, hcomment, hnewline, hreturn⟩ := hc
  have hskip : skipBlanks (c :: cs) = c :: cs := skipBlanks_cons (by simp [isBlank, hspace, htab]) cs
  have hmore : restOfLine? (c :: cs) = none := by
    rw [restOfLine?, hskip]
    split
    · rename_i heq
      exact absurd (List.cons.inj heq).1 hcomment
    · rw [lineEnd?.eq_def]
      split <;> simp_all
  intro fuel hfuel
  cases fuel with
  | zero => cases hfuel
  | succ fuel =>
      obtain ⟨numbered, hnumbered, hfound⟩ := h fuel (by omega)
      refine ⟨(line, (c :: cs).length) :: numbered, ?_, by rw [List.map_cons, hfound]⟩
      rw [lines, hskip]
      simp only [hmore, hline, hnumbered]
      rfl

theorem not_mem_of_isBare {c : Char} (h : isBare c = true) :
    c ∉ [' ', '\t', '#', '\n', '\r'] := by
  intro hmem
  have hnone : ∀ d ∈ [' ', '\t', '#', '\n', '\r'], isBare d = false := by simp [isBare]
  exact ne_of_isBare h (hnone c hmem) rfl

/-- The line of a field is read as its pair. -/
theorem ReadsAs.fieldLine (h : ReadsAs rest found) {name text : String} (hname : IsBareKey name)
    (htext : Unescaped text) :
    ReadsAs ((Config.fieldLine name text).toList ++ rest) (.pair [] name (.string text) :: found) := by
  have hline := line?_fieldLine hname htext rest
  have hlength : rest.length < ((Config.fieldLine name text).toList ++ rest).length := by
    simp only [toList_fieldLine, List.length_append, List.length_cons]
    omega
  obtain ⟨c, cs, hc, hbare⟩ := hname.exists_cons
  rw [toList_fieldLine, hc] at hline hlength ⊢
  exact h.cons (not_mem_of_isBare hbare) hline hlength

/-- A header is read as its table. -/
theorem ReadsAs.header (h : ReadsAs rest found) {name : String} (hname : IsBareKey name) :
    ReadsAs ('[' :: (name.toList ++ ']' :: '\n' :: rest)) (.table [name] :: found) := by
  refine h.cons (by decide) (line?_header hname rest) ?_
  simp only [List.length_append, List.length_cons]
  omega

end Texts

section Tables

/-- A field: a key, and a text that needs no escaping. -/
structure TextField where
  key : String
  text : String
  bare : IsBareKey key
  unescaped : Unescaped text

/-- A table with a header, whose fields are texts. -/
structure TextTable where
  name : String
  fields : List TextField
  bare : IsBareKey name
  distinct : (fields.map TextField.key).Nodup

namespace TextField

/-- The characters of a field. -/
def chars (f : TextField) : List Char := (Config.fieldLine f.key f.text).toList

/-- A field as a line of a document. -/
def line (f : TextField) : Line := .pair [] f.key (.string f.text)

/-- A field as a pair under a header. -/
def pair (f : TextField) : List String × String × Value := ([], f.key, .string f.text)

/-- A field as an entry of its table. -/
def entry (f : TextField) : String × Value := (f.key, .string f.text)

end TextField

namespace TextTable

/-- The characters of a table: its header, and a line for each field. -/
def chars (t : TextTable) : List Char :=
  '[' :: (t.name.toList ++ ']' :: '\n' :: t.fields.flatMap TextField.chars)

/-- The lines of a table. -/
def lines (t : TextTable) : List Line :=
  .table [t.name] :: t.fields.map TextField.line

/-- A table as an entry of its document. -/
def entry (t : TextTable) : String × Value :=
  (t.name, .table .header (t.fields.map TextField.entry))

end TextTable

variable {rest : List Char} {found : List Line}

theorem ReadsAs.fields (h : ReadsAs rest found) (fs : List TextField) :
    ReadsAs (fs.flatMap TextField.chars ++ rest) (fs.map TextField.line ++ found) := by
  induction fs with
  | nil => exact h
  | cons f fs ih =>
      rw [List.flatMap_cons, List.append_assoc]
      exact ih.fieldLine f.bare f.unescaped

/-- The characters of a table are read as its lines. -/
theorem ReadsAs.table (h : ReadsAs rest found) (t : TextTable) :
    ReadsAs (t.chars ++ rest) (t.lines ++ found) := by
  have htable := (h.fields t.fields).header t.bare
  simpa [TextTable.chars, TextTable.lines] using htable

end Tables

section Entries

variable {entries : Entries} {key : String}

theorem Entries.get?_of_not_mem (h : key ∉ entries.map Prod.fst) : entries.get? key = none := by
  rw [Entries.get?, List.find?_eq_none.mpr, Option.map_none]
  intro x hx
  have hne : x.1 ≠ key := fun heq => h (heq ▸ List.mem_map_of_mem hx)
  simpa using hne

theorem Entries.put_of_not_mem (h : key ∉ entries.map Prod.fst) (v : Value) :
    entries.put key v = entries ++ [(key, v)] := by
  induction entries with
  | nil => rfl
  | cons x entries ih =>
      rw [List.map_cons, List.mem_cons, not_or] at h
      rw [Entries.put, if_neg (Ne.symm h.1), ih h.2, List.cons_append]

/-- Fields with new keys are added behind the entries. -/
theorem Entries.addPairs_fields {fs : List TextField}
    (h : (entries.map Prod.fst ++ fs.map TextField.key).Nodup) :
    entries.addPairs (fs.map TextField.pair) = some (entries ++ fs.map TextField.entry) := by
  induction fs generalizing entries with
  | nil =>
      rw [List.map_nil, List.map_nil, List.append_nil]
      rfl
  | cons f fs ih =>
      have hnew : f.key ∉ entries.map Prod.fst := by
        intro hmem
        exact (List.nodup_append.mp h).2.2 f.key hmem f.key (by simp) rfl
      have hadd : Entries.addPair [] f.key (.string f.text) entries =
          some (entries ++ [f.entry]) := by
        rw [Entries.addPair, Entries.addNew, Entries.get?_of_not_mem hnew]
        rfl
      have hrest : ((entries ++ [f.entry]).map Prod.fst ++ fs.map TextField.key).Nodup := by
        simpa [TextField.entry] using h
      rw [List.map_cons, TextField.pair, Entries.addPairs, hadd]
      dsimp only
      rw [ih hrest, List.append_assoc]
      rfl

/-- A table with a new name is added behind the entries. -/
theorem Entries.addTable_fields {t : TextTable} (h : t.name ∉ entries.map Prod.fst) :
    entries.addTable t.name (t.fields.map TextField.pair) = some (entries ++ [t.entry]) := by
  have hfields : Entries.addPairs [] (t.fields.map TextField.pair) =
      some (t.fields.map TextField.entry) :=
    Entries.addPairs_fields t.distinct
  rw [Entries.addTable, Entries.get?_of_not_mem h]
  dsimp only
  rw [hfields, Option.map_some, Entries.put_of_not_mem h]
  rfl

end Entries

section Documents

variable {ts : List TextTable} {numbered : List (Line × Nat)}

/-- The pairs in front of the lines of tables are those of the fields in front. -/
theorem pairsInFront_fields {fs : List TextField}
    (h : numbered.map Prod.fst = fs.map TextField.line ++ ts.flatMap TextTable.lines) :
    ∃ after, pairsInFront numbered = (fs.map TextField.pair, after) ∧
      after.map Prod.fst = ts.flatMap TextTable.lines := by
  induction fs generalizing numbered with
  | nil =>
      refine ⟨numbered, ?_, h⟩
      cases ts with
      | nil =>
          rw [List.map_eq_nil_iff.mp h]
          rfl
      | cons t ts =>
          obtain ⟨⟨line, start⟩, rest, rfl, hline, -⟩ := List.map_eq_cons_iff.mp h
          cases hline
          rfl
  | cons f fs ih =>
      obtain ⟨⟨line, start⟩, rest, rfl, hline, hrest⟩ := List.map_eq_cons_iff.mp h
      cases hline
      obtain ⟨after, hpairs, hafter⟩ := ih hrest
      refine ⟨after, ?_, hafter⟩
      rw [pairsInFront, hpairs]
      rfl

/-- Tables with new names are added behind the entries. -/
theorem addSections_tables {fuel : Nat} {entries : Entries} (hfuel : ts.length ≤ fuel)
    (hlines : numbered.map Prod.fst = ts.flatMap TextTable.lines)
    (hnames : (entries.map Prod.fst ++ ts.map TextTable.name).Nodup) :
    addSections fuel numbered entries = .ok (entries ++ ts.map TextTable.entry) := by
  induction ts generalizing fuel numbered entries with
  | nil =>
      rw [List.map_eq_nil_iff.mp hlines, List.map_nil, List.append_nil]
      cases fuel <;> rfl
  | cons t ts ih =>
      obtain ⟨⟨line, start⟩, rest, rfl, hline, hrest⟩ := List.map_eq_cons_iff.mp hlines
      cases hline
      obtain ⟨after, hpairs, hafter⟩ := pairsInFront_fields hrest
      have hnew : t.name ∉ entries.map Prod.fst := by
        intro hmem
        exact (List.nodup_append.mp hnames).2.2 t.name hmem t.name (by simp) rfl
      have htable : Entries.changeAt (splitKey [t.name]).1
          (Entries.addTable (splitKey [t.name]).2 (t.fields.map TextField.pair)) entries =
            some (entries ++ [t.entry]) :=
        Entries.addTable_fields hnew
      have hnames' : ((entries ++ [t.entry]).map Prod.fst ++ ts.map TextTable.name).Nodup := by
        simpa [TextTable.entry] using hnames
      cases fuel with
      | zero => cases hfuel
      | succ fuel =>
          rw [addSections, hpairs]
          dsimp only
          rw [htable]
          dsimp only
          rw [ih (Nat.le_of_succ_le_succ hfuel) hafter hnames', List.append_assoc]
          rfl

theorem length_le_length_lines (ts : List TextTable) :
    ts.length ≤ (ts.flatMap TextTable.lines).length := by
  induction ts with
  | nil => exact Nat.le_refl 0
  | cons t ts ih =>
      simp only [List.flatMap_cons, List.length_append, TextTable.lines, List.length_cons]
      omega

/-- A text that is read as the lines of tables is a document of these tables. -/
theorem read_of_readsAs {text : String} (hmark : text.toList.head? ≠ some '\uFEFF')
    (h : ReadsAs text.toList (ts.flatMap TextTable.lines)) (hnames : (ts.map TextTable.name).Nodup) :
    Toml.read text = .ok (ts.map TextTable.entry) := by
  have hfront : withoutMark text.toList = text.toList := by
    unfold withoutMark
    split <;> simp_all
  obtain ⟨numbered, hlines, hfound⟩ := h (text.toList.length + 1) (Nat.lt_succ_self _)
  have hfuel : ts.length ≤ numbered.length := by
    have hlength := congrArg List.length hfound
    rw [List.length_map] at hlength
    rw [hlength]
    exact length_le_length_lines ts
  -- no pair stands in front of the first header
  have hnone : numbered.map Prod.fst =
      ([] : List TextField).map TextField.line ++ ts.flatMap TextTable.lines := hfound
  obtain ⟨after, hpairs, hafter⟩ := pairsInFront_fields hnone
  have hassemble : assembleLines numbered = .ok (ts.map TextTable.entry) := by
    rw [assembleLines, hpairs]
    exact addSections_tables hfuel hafter hnames
  simp only [Toml.read, hfront, hlines, hassemble]
  rfl

end Documents

end Toml
end GoTags
