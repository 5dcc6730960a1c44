import GoTags.Proofs.Lines
import GoTags.Proofs.Spelling
import GoTags.Tag.FileLines

/-!
# Walking to lines and keeping them

The source that keeps the lines of a file goes by the components of a path; the
source that walks to every line opens the path as it is spelt.

**Input.** Requests to one source of lines, in any order.

**Results.**
* `scan_eq`: walking to a line picks it from the lines of the content.
* `Follows.call`: which file the kept lines are from, after any requests.
* `Follows.answer_iff`: which requests are answered like a walk to the line.
* `answers_cached_eq_iff`: the two sources give the same answers exactly if no
  request is misled by the spelling of its path.
-/

namespace GoTags

section Calls

/-- A request to a source of lines. -/
inductive LineCall where
  | resolve (path : Path) (line : Nat)
  | clear
  deriving DecidableEq, Repr

namespace LineSource

variable {σ : Type}

/-- The state after a request. -/
def call (source : LineSource σ) : LineCall → σ → σ
  | .resolve path line, s => (source.resolve path line s).2
  | .clear, s => source.forget s

/-- The state after requests. -/
def after (source : LineSource σ) (calls : List LineCall) (s : σ) : σ :=
  calls.foldl (fun s call => source.call call s) s

/-- The answers to requests, in order. -/
def answers (source : LineSource σ) : List LineCall → σ → List (Except Fault String)
  | [], _ => []
  | .resolve path line :: calls, s =>
      (source.resolve path line s).1 :: answers source calls (source.resolve path line s).2
  | .clear :: calls, s => answers source calls (source.forget s)

theorem after_concat (source : LineSource σ) (calls : List LineCall) (call : LineCall) (s : σ) :
    source.after (calls ++ [call]) s = source.call call (source.after calls s) :=
  List.foldl_concat ..

end LineSource

end Calls

namespace FileLines

section History

/-- Requests that do not make the kept lines of a file go away. -/
def Keeps (p : Path) : LineCall → Prop
  | .resolve q line => line = 0 ∨ Path.same p q = true
  | .clear => False

/-- The lines of a file are among the last that were asked for: since a request
for one of them no other file was asked for, and nothing was let go of. -/
def Holds (fs : FileSystem) (calls : List LineCall) (p : Path) : Prop :=
  ∃ before line between, calls = before ++ .resolve p line :: between ∧ 0 < line ∧
    (∃ content, fs.read p = .ok content) ∧ ∀ call ∈ between, Keeps p call

/-- A request is misled by its spelling: the lines of the file are kept under
another spelling, and this one leads to no file, since it asks for a directory or
is too long. -/
structure Misled (fs : FileSystem) (calls : List LineCall) (path : Path) (line : Nat) : Prop where
  line_pos : 0 < line
  spelling : path.Trails ∨ Lookup.pathLimit ≤ path.length
  kept : ∃ p, Holds fs calls p ∧ Path.same p path = true

theorem same_iff {p q : Path} : Path.same p q = true ↔ p.components = q.components :=
  decide_eq_true_iff

theorem not_holds_nil (fs : FileSystem) (p : Path) : ¬Holds fs [] p := by
  rintro ⟨before, line, between, h, -⟩
  simp at h

/-- A list split at an element that starts something which the elements after it let go
on: what one more element does to the splits. -/
theorem exists_split_concat_iff {α : Type} {starts : List α → α → Prop} {keeps : α → Prop}
    (l : List α) (x : α) :
    (∃ before y since, l ++ [x] = before ++ y :: since ∧ starts before y ∧ ∀ z ∈ since, keeps z) ↔
      starts l x ∨
        (∃ before y since, l = before ++ y :: since ∧ starts before y ∧ ∀ z ∈ since, keeps z) ∧
          keeps x := by
  constructor
  · rintro ⟨before, y, since, h, hstarts, hkeeps⟩
    rcases List.eq_nil_or_concat since with rfl | ⟨since', last, rfl⟩
    · obtain ⟨rfl, hx⟩ := List.append_inj' h rfl
      rw [List.singleton_inj.mp hx]
      exact Or.inl hstarts
    · rw [List.concat_eq_append, ← List.cons_append, ← List.append_assoc] at h
      obtain ⟨hl, hx⟩ := List.append_inj' h rfl
      rw [List.concat_eq_append, List.forall_mem_append, List.forall_mem_singleton] at hkeeps
      rw [List.singleton_inj.mp hx]
      exact Or.inr ⟨⟨before, y, since', hl, hstarts, hkeeps.1⟩, hkeeps.2⟩
  · rintro (hstarts | ⟨⟨before, y, since, rfl, hstarts, hkeeps⟩, hx⟩)
    · exact ⟨l, x, [], rfl, hstarts, by simp⟩
    · refine ⟨before, y, since ++ [x], by simp, hstarts, ?_⟩
      rw [List.forall_mem_append, List.forall_mem_singleton]
      exact ⟨hkeeps, hx⟩

theorem holds_iff (fs : FileSystem) (calls : List LineCall) (p : Path) :
    Holds fs calls p ↔
      ∃ before call since, calls = before ++ call :: since ∧
        (∃ line, call = .resolve p line ∧ 0 < line ∧ ∃ content, fs.read p = .ok content) ∧
          ∀ c ∈ since, Keeps p c := by
  constructor
  · rintro ⟨before, line, since, h, hline, hread, hkeeps⟩
    exact ⟨before, _, since, h, ⟨line, rfl, hline, hread⟩, hkeeps⟩
  · rintro ⟨before, _, since, h, ⟨line, rfl, hline, hread⟩, hkeeps⟩
    exact ⟨before, line, since, h, hline, hread, hkeeps⟩

/-- What one more request does to the files whose lines are kept. -/
theorem holds_concat_iff (fs : FileSystem) (calls : List LineCall) (call : LineCall) (p : Path) :
    Holds fs (calls ++ [call]) p ↔
      (∃ line, call = .resolve p line ∧ 0 < line ∧ ∃ content, fs.read p = .ok content) ∨
        (Holds fs calls p ∧ Keeps p call) := by
  rw [holds_iff, holds_iff]
  exact exists_split_concat_iff calls call

end History

section Cached

/-- Walking to a line picks it from the lines of the content. -/
theorem scan_eq (fs : FileSystem) (path : Path) {line : Nat} (hline : 0 < line) :
    scan fs path line =
      match fs.read path with
      | .error cause => .error (fault path line (.unreadable cause))
      | .ok content => pick path line (Lines.all content) := by
  obtain ⟨above, rfl⟩ := Nat.exists_eq_add_one.mpr hline
  unfold scan pick
  dsimp only
  cases fs.read path with
  | error cause => rfl
  | ok content =>
      dsimp only
      rw [Lines.walk_eq, Lines.found, Nat.add_sub_cancel]
      cases (Lines.all content)[above]? with
      | some bytes => rfl
      | none =>
          dsimp only
          rw [Nat.zero_add]

/-- Lines that are there are never answered for by a file that is not. -/
theorem pick_ne_unreadable (path : Path) (line : Nat) (lines : List Bytes) (cause : FileFault) :
    pick path line lines ≠ .error (fault path line (.unreadable cause)) := by
  unfold pick
  split
  · unfold decode fault
    split <;> simp
  · simp [fault]

theorem heldFor_eq_some_iff {path : Path} {held : Held} {lines : List Bytes} :
    heldFor path held = some lines ↔
      ∃ p, held = some (p, lines) ∧ p.components = path.components := by
  cases held with
  | none => simp [heldFor]
  | some current =>
      obtain ⟨p, kept⟩ := current
      unfold heldFor
      simp only [same_iff, Option.ite_none_right_eq_some, Option.some.injEq, Prod.mk.injEq]
      constructor
      · rintro ⟨h, rfl⟩
        exact ⟨p, ⟨rfl, rfl⟩, h⟩
      · rintro ⟨_, ⟨rfl, rfl⟩, h⟩
        exact ⟨h, rfl⟩

/-- Whatever a cache holds for a path are the lines of the file there. -/
def Fresh (fs : FileSystem) (path : Path) (c : Cache) : Prop :=
  ∀ kept, heldFor path c.held = some kept →
    ∃ content, fs.read path = .ok content ∧ kept = Lines.all content

theorem Fresh.answer {fs : FileSystem} {path : Path} {c : Cache} (hc : Fresh fs path c)
    (line : Nat) : (c.resolve fs path line).1 = scan fs path line := by
  unfold Cache.resolve
  split
  · rename_i hline
    rw [hline, scan]
  · rename_i hline
    rw [scan_eq fs path (Nat.pos_of_ne_zero hline)]
    cases hkept : heldFor path c.held with
    | some kept =>
        obtain ⟨content, hread, rfl⟩ := hc kept hkept
        rw [hread]
    | none =>
        cases fs.read path with
        | error cause => rfl
        | ok content => rfl

theorem Fresh.resolve {fs : FileSystem} {path : Path} {c : Cache} (hc : Fresh fs path c)
    (line : Nat) : Fresh fs path (c.resolve fs path line).2 := by
  unfold Cache.resolve
  split
  · exact hc
  · cases hkept : heldFor path c.held with
    | some kept => exact hc
    | none =>
        cases hread : fs.read path with
        | error cause =>
            intro kept h
            cases h
        | ok content =>
            intro kept h
            obtain ⟨p, hheld, -⟩ := heldFor_eq_some_iff.mp h
            cases hheld
            exact ⟨content, hread, rfl⟩

/-- What a cache holds after requests: the lines of a file, if they were asked for
and nothing made them go away. -/
structure Follows (fs : FileSystem) (calls : List LineCall) (c : Cache) : Prop where
  lines : ∀ p kept, c.held = some (p, kept) →
    ∃ content, fs.read p = .ok content ∧ kept = Lines.all content
  holds : ∀ q : Path, (∃ kept, heldFor q c.held = some kept) ↔
    ∃ p, Holds fs calls p ∧ p.components = q.components

theorem follows_empty (fs : FileSystem) : Follows fs [] {} where
  lines := by
    intro p kept h
    cases h
  holds := by
    intro q
    constructor
    · rintro ⟨kept, h⟩
      cases h
    · rintro ⟨p, h, -⟩
      exact absurd h (not_holds_nil fs p)

theorem Follows.clear {fs : FileSystem} {calls : List LineCall} {c : Cache} :
    Follows fs (calls ++ [.clear]) c.clear where
  lines := by
    intro p kept h
    cases h
  holds := by
    intro q
    constructor
    · rintro ⟨kept, h⟩
      cases h
    · rintro ⟨p, h, -⟩
      rcases (holds_concat_iff fs calls .clear p).mp h with ⟨line, h, -⟩ | ⟨-, h⟩
      · cases h
      · exact absurd h not_false

/-- A request for a line of the kept file, or for line zero, keeps it. -/
theorem Follows.keep {fs : FileSystem} {calls : List LineCall} {c : Cache} {path : Path}
    {line : Nat} (hc : Follows fs calls c)
    (h : line = 0 ∨ ∃ kept, heldFor path c.held = some kept) :
    Follows fs (calls ++ [.resolve path line]) c where
  lines := hc.lines
  holds := by
    intro q
    rw [hc.holds]
    constructor
    · rintro ⟨p, hp, hpq⟩
      rcases h with rfl | ⟨kept, hkept⟩
      · exact ⟨p, (holds_concat_iff ..).mpr (Or.inr ⟨hp, Or.inl rfl⟩), hpq⟩
      · obtain ⟨p', hheld, hsame⟩ := heldFor_eq_some_iff.mp hkept
        obtain ⟨kept', hq⟩ := (hc.holds q).mpr ⟨p, hp, hpq⟩
        obtain ⟨p'', hheld', hsame'⟩ := heldFor_eq_some_iff.mp hq
        rw [hheld, Option.some.injEq, Prod.mk.injEq] at hheld'
        obtain ⟨rfl, -⟩ := hheld'
        have hkeeps : Keeps p (.resolve path line) :=
          Or.inr (same_iff.mpr (by rw [hpq, ← hsame', hsame]))
        exact ⟨p, (holds_concat_iff ..).mpr (Or.inr ⟨hp, hkeeps⟩), hpq⟩
    · rintro ⟨p, hp, hpq⟩
      rcases (holds_concat_iff ..).mp hp with ⟨line', hcall, hline, -⟩ | ⟨hp, -⟩
      · cases hcall
        rcases h with rfl | h
        · omega
        · obtain ⟨r, hr, hrp⟩ := (hc.holds _).mp h
          exact ⟨r, hr, hrp.trans hpq⟩
      · exact ⟨p, hp, hpq⟩

/-- After a request for another file its lines are kept if it can be read, and
none are if not. -/
theorem Follows.replace {fs : FileSystem} {calls : List LineCall} {c c' : Cache} {path : Path}
    {line : Nat} (hc : Follows fs calls c) (hline : 0 < line)
    (hmiss : heldFor path c.held = none)
    (hheld : c'.held =
      match fs.read path with
      | .error _ => none
      | .ok content => some (path, Lines.all content)) :
    Follows fs (calls ++ [.resolve path line]) c' := by
  have hholds : ∀ p, Holds fs (calls ++ [.resolve path line]) p ↔
      p = path ∧ ∃ content, fs.read p = .ok content := by
    intro p
    rw [holds_concat_iff]
    constructor
    · rintro (⟨line', hcall, -, hread⟩ | ⟨hp, hkeeps⟩)
      · cases hcall
        exact ⟨rfl, hread⟩
      · have hsame := same_iff.mp (hkeeps.resolve_left (by omega))
        obtain ⟨kept, hkept⟩ := (hc.holds path).mpr ⟨p, hp, hsame⟩
        rw [hmiss] at hkept
        cases hkept
    · rintro ⟨rfl, hread⟩
      exact Or.inl ⟨line, rfl, hline, hread⟩
  cases hread : fs.read path with
  | error cause =>
      rw [hread] at hheld
      refine ⟨?_, ?_⟩
      · intro p kept h
        rw [hheld] at h
        cases h
      · intro q
        rw [hheld]
        constructor
        · rintro ⟨kept, h⟩
          cases h
        · rintro ⟨p, hp, -⟩
          obtain ⟨rfl, content, hcontent⟩ := (hholds p).mp hp
          rw [hread] at hcontent
          cases hcontent
  | ok content =>
      rw [hread] at hheld
      refine ⟨?_, ?_⟩
      · intro p kept h
        rw [hheld] at h
        cases h
        exact ⟨content, hread, rfl⟩
      · intro q
        rw [hheld]
        constructor
        · rintro ⟨kept, h⟩
          obtain ⟨p, hp, hpq⟩ := heldFor_eq_some_iff.mp h
          cases hp
          exact ⟨path, (hholds path).mpr ⟨rfl, content, hread⟩, hpq⟩
        · rintro ⟨p, hp, hpq⟩
          obtain ⟨rfl, -⟩ := (hholds p).mp hp
          exact ⟨Lines.all content, heldFor_eq_some_iff.mpr ⟨p, rfl, hpq⟩⟩

theorem Follows.resolve {fs : FileSystem} {calls : List LineCall} {c : Cache}
    (hc : Follows fs calls c) (path : Path) (line : Nat) :
    Follows fs (calls ++ [.resolve path line]) (c.resolve fs path line).2 := by
  unfold Cache.resolve
  split
  · exact hc.keep (Or.inl ‹_›)
  · rename_i hline
    cases hkept : heldFor path c.held with
    | some kept => exact hc.keep (Or.inr ⟨kept, hkept⟩)
    | none =>
        cases hread : fs.read path with
        | error cause => exact hc.replace (Nat.pos_of_ne_zero hline) hkept (by rw [hread]; rfl)
        | ok content => exact hc.replace (Nat.pos_of_ne_zero hline) hkept (by rw [hread]; rfl)

theorem Follows.call {fs : FileSystem} {calls : List LineCall} {c : Cache}
    (hc : Follows fs calls c) (call : LineCall) :
    Follows fs (calls ++ [call]) ((cached fs).call call c) := by
  cases call with
  | resolve path line => exact hc.resolve path line
  | clear => exact Follows.clear

theorem follows_after (fs : FileSystem) (calls : List LineCall) :
    Follows fs calls ((cached fs).after calls {}) := by
  induction calls using List.reverseRecOn with
  | nil => exact follows_empty fs
  | append_singleton calls call ih =>
      rw [LineSource.after_concat]
      exact ih.call call

/-- A request that is not misled finds the lines of its own file, or none. -/
theorem Follows.fresh {fs : FileSystem} {calls : List LineCall} {c : Cache}
    (hc : Follows fs calls c) {path : Path} {line : Nat} (hline : 0 < line)
    (h : ¬Misled fs calls path line) : Fresh fs path c := by
  intro kept hkept
  obtain ⟨p, hheld, hsame⟩ := heldFor_eq_some_iff.mp hkept
  obtain ⟨content, hread, rfl⟩ := hc.lines p kept hheld
  refine ⟨content, (FileSystem.read_of_same_iff hread (same_iff.mpr hsame)).mpr ?_, rfl⟩
  obtain ⟨r, hr, hrpath⟩ := (hc.holds path).mp ⟨_, hkept⟩
  by_contra hbad
  rw [not_and_or, not_not, Nat.not_lt] at hbad
  exact h ⟨hline, hbad, r, hr, same_iff.mpr hrpath⟩

/-- A request that is misled gets a line, where a walk would find no file. -/
theorem Follows.answer_ne {fs : FileSystem} {calls : List LineCall} {c : Cache}
    (hc : Follows fs calls c) {path : Path} {line : Nat} (h : Misled fs calls path line) :
    (c.resolve fs path line).1 ≠ scan fs path line := by
  obtain ⟨hline, hspelling, p, hp, hsame⟩ := h
  obtain ⟨kept, hkept⟩ := (hc.holds path).mpr ⟨p, hp, same_iff.mp hsame⟩
  rw [scan_eq fs path hline, Cache.resolve, if_neg (Nat.ne_of_gt hline), hkept]
  cases hread : fs.read path with
  | error cause => exact pick_ne_unreadable path line kept cause
  | ok content =>
      obtain ⟨htrails, hlength⟩ := FileSystem.not_trails_of_read hread
      rcases hspelling with hspelling | hspelling
      · exact absurd hspelling htrails
      · exact absurd hlength (Nat.not_lt.mpr hspelling)

/-- A request is answered like a walk to the line exactly if it is not misled. -/
theorem Follows.answer_iff {fs : FileSystem} {calls : List LineCall} {c : Cache}
    (hc : Follows fs calls c) (path : Path) (line : Nat) :
    (c.resolve fs path line).1 = scan fs path line ↔ ¬Misled fs calls path line := by
  constructor
  · intro h hmisled
    exact hc.answer_ne hmisled h
  · intro h
    by_cases hline : line = 0
    · rw [hline, Cache.resolve, if_pos rfl, scan]
    · exact (hc.fresh (Nat.pos_of_ne_zero hline) h).answer line

end Cached

section Sessions

theorem forall_split_cons {P : List LineCall → Path → Nat → Prop} (call : LineCall)
    (calls : List LineCall) :
    (∀ front path line rest, call :: calls = front ++ .resolve path line :: rest →
        P front path line) ↔
      (∀ path line, call = .resolve path line → P [] path line) ∧
        ∀ front path line rest, calls = front ++ .resolve path line :: rest →
          P (call :: front) path line := by
  constructor
  · intro h
    refine ⟨?_, ?_⟩
    · rintro path line rfl
      exact h [] path line calls rfl
    · rintro front path line rest rfl
      exact h (call :: front) path line rest rfl
  · rintro ⟨hfirst, h⟩ front path line rest hcalls
    cases front with
    | nil =>
        rw [List.nil_append, List.cons.injEq] at hcalls
        exact hfirst path line hcalls.1
    | cons first front =>
        rw [List.cons_append, List.cons.injEq] at hcalls
        obtain ⟨rfl, hcalls⟩ := hcalls
        exact h front path line rest hcalls

theorem answers_cached_eq_iff_from (fs : FileSystem) (before calls : List LineCall) :
    (cached fs).answers calls ((cached fs).after before {}) = (scanning fs).answers calls () ↔
      ∀ front path line rest, calls = front ++ .resolve path line :: rest →
        ¬Misled fs (before ++ front) path line := by
  induction calls generalizing before with
  | nil => simp [LineSource.answers]
  | cons call calls ih =>
      have hcalls := ih (before ++ [call])
      rw [LineSource.after_concat] at hcalls
      simp only [List.append_assoc, List.singleton_append] at hcalls
      rw [forall_split_cons (P := fun front path line => ¬Misled fs (before ++ front) path line),
        ← hcalls, List.append_nil]
      cases call with
      | clear => simp [LineSource.answers, LineSource.call, cached, scanning]
      | resolve path line =>
          have hanswer := (follows_after fs before).answer_iff path line
          rw [LineSource.answers, LineSource.answers, List.cons.injEq]
          refine and_congr (hanswer.trans ?_) Iff.rfl
          constructor
          · rintro h path' line' hcall
            cases hcall
            exact h
          · intro h
            exact h path line rfl

/-- **When keeping lines shows.** Over any requests, the source that keeps lines
answers like the one that walks to every line, exactly if no request is misled by
the spelling of its path. -/
theorem answers_cached_eq_iff (fs : FileSystem) (calls : List LineCall) :
    (cached fs).answers calls {} = (scanning fs).answers calls () ↔
      ∀ before path line rest, calls = before ++ .resolve path line :: rest →
        ¬Misled fs before path line :=
  answers_cached_eq_iff_from fs [] calls

/-- A file that is asked for again with a slash at the end. -/
theorem answers_cached_ne_slash :
    let fs : FileSystem := ⟨Store.empty.put [[0x61]] (.file [0x78, Bytes.newline]), some []⟩
    let calls : List LineCall := [.resolve [0x61] 1, .resolve [0x61, Bytes.slash] 1]
    (cached fs).answers calls {} = [.ok "x", .ok "x"] ∧
      (scanning fs).answers calls () =
        [.ok "x", .error (.line "a/" 1 (.unreadable .notADirectory))] := by
  decide

end Sessions

end FileLines

end GoTags
