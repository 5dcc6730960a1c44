import GoTags.Proofs.Resolvers

/-!
# Kept lines while files change

Files may change between two requests for lines. What is kept are then the lines that
a file had when it was read in, and a request for another file looks at the files as
they are.

**Input.** Changes of the files and requests to one source of lines, in any order.

**Results.**
* `pick_answeredBy`: what lines that are there answer to a request.
* `resolve_served`: what a request is answered with, and what is kept after it.
* `keepsLast_after`: what is kept after any changes and requests.
* `cache_over_history`: both, at every moment.
-/

namespace GoTags
namespace FileLines

section Requests

/-- What lines that are there answer to a request: the text of the line, or a fault
that names the file as the request spells it. -/
inductive AnsweredBy (lines : List Bytes) (path : Path) (line : Nat) :
    Except Fault String → Prop
  | text {s : String} (h : lines[line - 1]? = some (Utf8.encode s)) :
      AnsweredBy lines path line (.ok s)
  | undecodable {bytes : Bytes} {defect : Utf8.Defect} (h : lines[line - 1]? = some bytes)
      (hdefect : Utf8.defect? bytes = some defect) :
      AnsweredBy lines path line (.error (.line path.display line (.undecodable defect)))
  | pastEnd (h : lines[line - 1]? = none) :
      AnsweredBy lines path line (.error (.line path.display line (.pastEnd lines.length)))

theorem pick_answeredBy (path : Path) (line : Nat) (lines : List Bytes) :
    AnsweredBy lines path line (pick path line lines) := by
  unfold pick
  cases hbytes : lines[line - 1]? with
  | none => exact .pastEnd hbytes
  | some bytes =>
      dsimp only
      unfold decode
      cases hdefect : Utf8.defect? bytes with
      | none =>
          have htext : Utf8.IsText bytes := Utf8.defect?_eq_none_iff.mp hdefect
          exact .text (by rw [hbytes, Utf8.encode_lossy htext])
      | some defect => exact .undecodable hbytes hdefect

/-- No lines are kept for a path, in any of its spellings. -/
def Misses (c : Cache) (path : Path) : Prop :=
  ∀ p lines, c.held = some (p, lines) → p.components ≠ path.components

theorem misses_iff {c : Cache} {path : Path} : Misses c path ↔ heldFor path c.held = none := by
  rw [Option.eq_none_iff_forall_ne_some]
  constructor
  · intro h lines hlines
    obtain ⟨p, hheld, hsame⟩ := heldFor_eq_some_iff.mp hlines
    exact h p lines hheld hsame
  · intro h p lines hheld hsame
    exact h lines (heldFor_eq_some_iff.mpr ⟨p, hheld, hsame⟩)

/-- What a request is answered with, and what is kept after it. Line zero changes
nothing. Lines that are kept for the path answer it. Otherwise a walk through the file as
it is answers it, and its lines are kept from then on if it can be read, and none if
not. -/
inductive Served (fs : FileSystem) (c : Cache) (path : Path) :
    Nat → Except Fault String → Cache → Prop
  | zero : Served fs c path 0 (.error (.line path.display 0 .beforeFirst)) c
  | kept {line : Nat} {p : Path} {lines : List Bytes} {answer : Except Fault String}
      (hline : 0 < line) (hheld : c.held = some (p, lines))
      (hsame : p.components = path.components) (hanswer : AnsweredBy lines path line answer) :
      Served fs c path line answer c
  | readable {line : Nat} {content : Bytes} {c' : Cache} (hline : 0 < line)
      (hmiss : Misses c path) (hread : fs.read path = .ok content)
      (hheld : c'.held = some (path, Lines.all content)) :
      Served fs c path line (scan fs path line) c'
  | unreadable {line : Nat} {cause : FileFault} {c' : Cache} (hline : 0 < line)
      (hmiss : Misses c path) (hread : fs.read path = .error cause) (hheld : c'.held = none) :
      Served fs c path line (scan fs path line) c'

theorem resolve_served (fs : FileSystem) (c : Cache) (path : Path) (line : Nat) :
    Served fs c path line (c.resolve fs path line).1 (c.resolve fs path line).2 := by
  rcases Nat.eq_zero_or_pos line with rfl | hline
  · exact .zero
  · have hscan := scan_eq fs path hline
    unfold Cache.resolve
    rw [if_neg (Nat.ne_of_gt hline)]
    cases hkept : heldFor path c.held with
    | some lines =>
        obtain ⟨p, hheld, hsame⟩ := heldFor_eq_some_iff.mp hkept
        exact .kept hline hheld hsame (pick_answeredBy path line lines)
    | none =>
        have hmiss : Misses c path := misses_iff.mpr hkept
        cases hread : fs.read path with
        | error cause =>
            rw [hread] at hscan
            dsimp only at hscan ⊢
            rw [← hscan]
            exact .unreadable hline hmiss hread rfl
        | ok content =>
            rw [hread] at hscan
            dsimp only at hscan ⊢
            rw [← hscan]
            exact .readable hline hmiss hread rfl

end Requests

section Histories

/-- Something that happens over time: the files become others, or a request is made. -/
inductive Happening where
  | change (fs : FileSystem)
  | call (request : LineCall)

/-- The files at a moment, and the cache of their lines. -/
structure Moment where
  fs : FileSystem
  cache : Cache

/-- The moment after something has happened. -/
def Moment.next (m : Moment) : Happening → Moment
  | .change fs => { m with fs := fs }
  | .call request => { m with cache := (cached m.fs).call request m.cache }

/-- The moment after a history that starts with given files and an empty cache. -/
def Moment.after (start : FileSystem) (history : List Happening) : Moment :=
  history.foldl Moment.next ⟨start, {}⟩

theorem Moment.after_concat (start : FileSystem) (history : List Happening) (x : Happening) :
    Moment.after start (history ++ [x]) = (Moment.after start history).next x :=
  List.foldl_concat ..

/-- A file is read in, with a content: one of its lines is asked for, none are kept, and
this is what the file holds at the moment. -/
def ReadsIn (p : Path) (content : Bytes) (m : Moment) (x : Happening) : Prop :=
  (∃ line, x = .call (.resolve p line) ∧ 0 < line) ∧ Misses m.cache p ∧ m.fs.read p = .ok content

@[simp] theorem not_readsIn_change {p : Path} {content : Bytes} {m : Moment} {fs : FileSystem} :
    ¬ReadsIn p content m (.change fs) := by
  rintro ⟨⟨line, hx, -⟩, -⟩
  cases hx

@[simp] theorem not_readsIn_clear {p : Path} {content : Bytes} {m : Moment} :
    ¬ReadsIn p content m (.call .clear) := by
  rintro ⟨⟨line, hx, -⟩, -⟩
  cases hx

theorem readsIn_resolve_iff {p path : Path} {line : Nat} {content : Bytes} {m : Moment} :
    ReadsIn p content m (.call (.resolve path line)) ↔
      p = path ∧ 0 < line ∧ Misses m.cache path ∧ m.fs.read path = .ok content := by
  constructor
  · rintro ⟨⟨line, hx, hline⟩, hmiss, hread⟩
    cases hx
    exact ⟨rfl, hline, hmiss, hread⟩
  · rintro ⟨rfl, hline, hmiss, hread⟩
    exact ⟨⟨line, rfl, hline⟩, hmiss, hread⟩

/-- What does not make the kept lines of a file go away. -/
def Spares (p : Path) : Happening → Prop
  | .change _ => True
  | .call request => Keeps p request

/-- A file was read in with a content, and nothing has made its lines go away since. -/
def LastRead (start : FileSystem) (history : List Happening) (p : Path) (content : Bytes) : Prop :=
  ∃ before x since, history = before ++ x :: since ∧
    ReadsIn p content (Moment.after start before) x ∧ ∀ y ∈ since, Spares p y

theorem not_lastRead_nil (start : FileSystem) (p : Path) (content : Bytes) :
    ¬LastRead start [] p content := by
  rintro ⟨before, x, since, h, -⟩
  simp at h

theorem lastRead_concat_iff {start : FileSystem} {history : List Happening} {x : Happening}
    {p : Path} {content : Bytes} :
    LastRead start (history ++ [x]) p content ↔
      ReadsIn p content (Moment.after start history) x ∨
        LastRead start history p content ∧ Spares p x :=
  exists_split_concat_iff history x

/-- What is kept at a moment are the lines of the file that was read in last, as they
were then. -/
def KeepsLast (start : FileSystem) (history : List Happening) (c : Cache) : Prop :=
  ∀ p lines, c.held = some (p, lines) ↔
    ∃ content, LastRead start history p content ∧ lines = Lines.all content

variable {start : FileSystem} {history : List Happening}

theorem keepsLast_nil (start : FileSystem) : KeepsLast start [] {} := by
  intro p lines
  simp [not_lastRead_nil]

theorem KeepsLast.change {c : Cache} (h : KeepsLast start history c) (fs : FileSystem) :
    KeepsLast start (history ++ [.change fs]) c := by
  intro p lines
  simp [h p lines, lastRead_concat_iff, Spares]

theorem keepsLast_clear (c : Cache) : KeepsLast start (history ++ [.call .clear]) c.clear := by
  intro p lines
  simp [Cache.clear, lastRead_concat_iff, Spares, Keeps]

/-- A request that kept lines answer keeps them, and so does one for line zero. -/
theorem KeepsLast.keep {path : Path} {line : Nat}
    (h : KeepsLast start history (Moment.after start history).cache)
    (hkept : line = 0 ∨ ∃ p lines, (Moment.after start history).cache.held = some (p, lines) ∧
      p.components = path.components) :
    KeepsLast start (history ++ [.call (.resolve path line)])
      (Moment.after start history).cache := by
  intro p lines
  have hread : ∀ content,
      ¬ReadsIn p content (Moment.after start history) (.call (.resolve path line)) := by
    intro content hread
    obtain ⟨-, hline, hmiss, -⟩ := readsIn_resolve_iff.mp hread
    rcases hkept with rfl | ⟨p', lines', hheld, hsame⟩
    · omega
    · exact hmiss p' lines' hheld hsame
  simp only [lastRead_concat_iff, hread, false_or]
  rw [h p lines]
  constructor
  · rintro ⟨content, hlast, rfl⟩
    refine ⟨content, ⟨hlast, ?_⟩, rfl⟩
    rcases hkept with rfl | ⟨p', lines', hheld, hsame⟩
    · exact Or.inl rfl
    · -- only one file is kept, so it is this one that answers
      rw [(h p _).mpr ⟨content, hlast, rfl⟩] at hheld
      cases hheld
      exact Or.inr (same_iff.mpr hsame)
  · rintro ⟨content, ⟨hlast, -⟩, rfl⟩
    exact ⟨content, hlast, rfl⟩

/-- A request that no kept lines answer reads in its file, or leaves nothing. -/
theorem KeepsLast.replace {c : Cache} {path : Path} {line : Nat}
    (h : KeepsLast start history (Moment.after start history).cache) (hline : 0 < line)
    (hmiss : Misses (Moment.after start history).cache path)
    (hheld : c.held =
      match (Moment.after start history).fs.read path with
      | .error _ => none
      | .ok content => some (path, Lines.all content)) :
    KeepsLast start (history ++ [.call (.resolve path line)]) c := by
  intro p lines
  have hgone : ∀ content,
      ¬(LastRead start history p content ∧ Spares p (.call (.resolve path line))) := by
    rintro content ⟨hlast, hspares⟩
    have hsame := same_iff.mp (hspares.resolve_left (Nat.ne_of_gt hline))
    exact hmiss p _ ((h p _).mpr ⟨content, hlast, rfl⟩) hsame
  simp only [lastRead_concat_iff, hgone, or_false, readsIn_resolve_iff, hline, hmiss, true_and]
  rw [hheld]
  cases (Moment.after start history).fs.read path with
  | error cause => simp
  | ok content =>
      constructor
      · intro heq
        cases heq
        exact ⟨content, ⟨rfl, rfl⟩, rfl⟩
      · rintro ⟨content', ⟨rfl, hcontent⟩, rfl⟩
        cases hcontent
        rfl

theorem KeepsLast.served {c : Cache} {path : Path} {line : Nat} {answer : Except Fault String}
    (h : KeepsLast start history (Moment.after start history).cache)
    (hserved : Served (Moment.after start history).fs (Moment.after start history).cache path line
      answer c) :
    KeepsLast start (history ++ [.call (.resolve path line)]) c := by
  cases hserved with
  | zero => exact h.keep (Or.inl rfl)
  | kept _ hheld hsame _ => exact h.keep (Or.inr ⟨_, _, hheld, hsame⟩)
  | readable hline hmiss hread hheld => exact h.replace hline hmiss (by rw [hread, hheld])
  | unreadable hline hmiss hread hheld => exact h.replace hline hmiss (by rw [hread, hheld])

/-- What is kept after any history. -/
theorem keepsLast_after (start : FileSystem) (history : List Happening) :
    KeepsLast start history (Moment.after start history).cache := by
  induction history using List.reverseRecOn with
  | nil => exact keepsLast_nil start
  | append_singleton history x ih =>
      rw [Moment.after_concat]
      cases x with
      | change fs => exact ih.change fs
      | call request =>
          cases request with
          | clear => exact keepsLast_clear _
          | resolve path line => exact ih.served (resolve_served ..)

/-- **Kept lines while files change.** After any changes and requests, either nothing is
kept, or the lines that the file which was read in last had at that time; and every
request is answered from them, or from the files as they are. -/
theorem cache_over_history (start : FileSystem) (history : List Happening) :
    let m := Moment.after start history
    (∀ p lines, m.cache.held = some (p, lines) ↔
        ∃ content, LastRead start history p content ∧ lines = Lines.all content) ∧
      ∀ path line, Served m.fs m.cache path line
        ((cached m.fs).resolve path line m.cache).1 ((cached m.fs).resolve path line m.cache).2 :=
  ⟨keepsLast_after start history, fun path line => resolve_served _ _ path line⟩

-- a file that has changed since it was read in is answered for as it was
example :
    let file (content : Bytes) : FileSystem := ⟨Store.empty.put [[0x61]] (.file content), some []⟩
    let c := (Cache.resolve (file [0x78]) [0x61] 1 {}).2
    (c.resolve (file [0x79]) [0x61] 1).1 = .ok "x" ∧ scan (file [0x79]) [0x61] 1 = .ok "y" := by
  decide

end Histories

end FileLines
end GoTags
