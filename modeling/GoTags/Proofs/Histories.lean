import GoTags.Proofs.Framing
import GoTags.Proofs.Writing

/-!
# A tags file over many writes

Writes to one destination follow each other. Their policies differ, and some of them
fail. The writes that succeeded tell what the file holds: a replacing one starts over,
an appending one adds to what is there, and one that failed leaves no trace.

**Input.** A destination that leads nowhere at first, and writes to it.

**Results.**
* `standing_concat`: the writes that a file is made of, after one more.
* `Holds.write`, `holds_after`: what a file holds after one write, and after any number.
* `readAll_joined`: tags files that were appended to each other are read one by one.
* `content_over_history`: what a tags file holds, and that it can be read.
-/

namespace GoTags

section Writes

/-- A write to a destination that is understood. -/
structure Write where
  policy : WritePolicy
  data : Bytes
  deriving DecidableEq, Repr

/-- Of writes that succeeded, those that a file is made of: the last one that replaced
what it held and those after it, or all of them if each was appended. -/
def standing : List Write → List Write
  | [] => []
  | w :: later =>
      if later.all fun x => x.policy = .append then w :: later else standing later

/-- The bytes of writes, one after the other. -/
def joined (writes : List Write) : Bytes :=
  writes.flatMap Write.data

/-- The writes that a file is made of, after one more. -/
theorem standing_concat (done : List Write) (w : Write) :
    standing (done ++ [w]) = if w.policy = .append then standing done ++ [w] else [w] := by
  induction done with
  | nil => cases h : w.policy <;> simp [standing]
  | cons first later ih =>
      rw [List.cons_append, standing, standing, ih]
      by_cases hw : w.policy = .append
      · have hall : ((later ++ [w]).all fun x => x.policy = .append) =
            later.all fun x => x.policy = .append := by
          simp [hw]
        rw [hall, if_pos hw, if_pos hw]
        split
        · rfl
        · rfl
      · simp [hw]

/-- What a file holds after one more write, given what it held. -/
theorem joined_standing_concat (done : List Write) (w : Write) :
    joined (standing (done ++ [w])) = w.policy.result (joined (standing done)) w.data := by
  rw [standing_concat]
  cases hw : w.policy <;> simp [joined, WritePolicy.result]

end Writes

section Histories

/-- A file system after some writes, and those among them that succeeded. -/
structure Ledger where
  fs : FileSystem
  done : List Write

namespace Ledger

/-- One more write to a destination. It is entered if it succeeds. -/
def write (p : Path) (l : Ledger) (w : Write) : Ledger :=
  match persist w.data p w.policy l.fs with
  | (.error _, fs) => ⟨fs, l.done⟩
  | (.ok _, fs) => ⟨fs, l.done ++ [w]⟩

/-- Writes to a destination, one after the other. -/
def after (p : Path) (start : FileSystem) (writes : List Write) : Ledger :=
  writes.foldl (write p) ⟨start, []⟩

/-- What a destination that led nowhere holds: nothing, and then what the writes that
succeeded make. -/
def Holds (p : Path) (start : FileSystem) (l : Ledger) : Prop :=
  if l.done = [] then l.fs = start else l.fs.read p = .ok (joined (standing l.done))

variable {p : Path} {start : FileSystem} {l : Ledger}

/-- The file that a write opens holds what the writes before it make. -/
theorem Holds.old_eq (hstart : start.pathExists p = false) (h : l.Holds p start) {w : Write}
    {place : Place} {old : Option Bytes} (hopens : w.policy.Opens l.fs p place old) :
    old.getD [] = joined (standing l.done) := by
  by_cases hdone : l.done = []
  · rw [Holds, if_pos hdone] at h
    have hexists := pathExists_eq hopens.leads
    rw [h, hstart] at hexists
    have hnone : old = none := by simpa using hexists.symm
    rw [hnone, hdone]
    rfl
  · rw [Holds, if_neg hdone] at h
    obtain ⟨place', hspot⟩ := (FileSystem.read_eq_ok_iff _ _ _).mp h
    rw [hopens.leads, Except.ok.injEq, eq_comm, Lookup.Spot.file_eq_forFile_iff] at hspot
    rw [hspot.2]
    rfl

/-- One more write, by whether it succeeds. -/
theorem Holds.write (hstart : start.pathExists p = false) (h : l.Holds p start) (w : Write) :
    (l.write p w).Holds p start := by
  rcases persist_cases w.data p w.policy l.fs with
    ⟨fault, hwrite⟩ | ⟨report, fs, place, old, content, hwrite, hwritten⟩
  · rw [Ledger.write, hwrite]
    exact h
  · have hcontent := hwritten.content_eq
    rw [h.old_eq hstart hwritten.opened, ← joined_standing_concat] at hcontent
    rw [Ledger.write, hwrite, Holds, if_neg (by simp), hwritten.read, hcontent]

/-- Any number of writes. -/
theorem holds_after (hstart : start.pathExists p = false) (writes : List Write) :
    (after p start writes).Holds p start := by
  have hempty : Holds p start ⟨start, []⟩ := by simp [Holds]
  exact List.foldlRecOn writes (Ledger.write p) hempty fun l h w _ => h.write hstart w

end Ledger

end Histories

section Reading

/-- The bytes of a write are a tags file of chunks that fit into one. -/
def Write.Assembles (w : Write) (chunks : List Chunk) : Prop :=
  w.data = assemble chunks ∧
    ∀ c ∈ chunks, Bytes.newline ∉ Utf8.encode c.fileName ∧ c.bytes.length < Decimal.limit

theorem joined_eq_assemble {writes : List Write} {made : List (List Chunk)}
    (h : List.Forall₂ Write.Assembles writes made) :
    joined writes = assemble made.flatten ∧ ∀ c ∈ made.flatten,
      Bytes.newline ∉ Utf8.encode c.fileName ∧ c.bytes.length < Decimal.limit := by
  induction h with
  | nil => simp [joined, assemble]
  | @cons w chunks writes made hw _ ih =>
      constructor
      · rw [joined, List.flatMap_cons, hw.1, ← joined, ih.1, List.flatten_cons, assemble,
          assemble, assemble, List.flatMap_append]
      · rw [List.flatten_cons, List.forall_mem_append]
        exact ⟨hw.2, ih.2⟩

/-- Tags files that were appended to each other are read one by one. -/
theorem readAll_joined {writes : List Write} {made : List (List Chunk)}
    (h : List.Forall₂ Write.Assembles writes made) :
    Section.readAll (joined writes) = .ok (made.flatten.map Section.ofChunk) := by
  obtain ⟨hjoined, hchunks⟩ := joined_eq_assemble h
  rw [hjoined]
  exact Section.readAll_assemble hchunks

/-- **A tags file over any history.** As long as no write to a destination that led
nowhere has succeeded, nothing has changed. From then on the file is there, and holds the
bytes of the writes that succeeded, from the last one that replaced its content on. If
these are tags files, their sections are read in the order of the writes. -/
theorem content_over_history {p : Path} {start : FileSystem} (hstart : start.pathExists p = false)
    (writes : List Write) :
    let l := Ledger.after p start writes
    (l.done = [] → l.fs = start) ∧
      (l.fs.pathExists p = true ↔ l.done ≠ []) ∧
      (l.done ≠ [] → l.fs.read p = .ok (joined (standing l.done))) ∧
      ∀ made, List.Forall₂ Write.Assembles (standing l.done) made →
        Section.readAll (joined (standing l.done)) = .ok (made.flatten.map Section.ofChunk) := by
  intro l
  have hholds : l.Holds p start := Ledger.holds_after hstart writes
  have hread : l.done ≠ [] → l.fs.read p = .ok (joined (standing l.done)) := by
    intro hdone
    rwa [Ledger.Holds, if_neg hdone] at hholds
  have hsame : l.done = [] → l.fs = start := by
    intro hdone
    rwa [Ledger.Holds, if_pos hdone] at hholds
  refine ⟨hsame, ⟨?_, ?_⟩, hread, fun made => readAll_joined⟩
  · intro hexists hdone
    rw [hsame hdone, hstart] at hexists
    cases hexists
  · intro hdone
    obtain ⟨place, hspot⟩ := (FileSystem.read_eq_ok_iff _ _ _).mp (hread hdone)
    have hleads : l.fs.spot .find p = .ok (.forFile place (some (joined (standing l.done)))) := hspot
    exact pathExists_eq hleads

/-- A file is made by appending, refused to be made again, replaced, and appended to. -/
theorem content_over_history_mixed :
    let p := Bytes.ascii "T"
    let start : FileSystem := ⟨Store.empty, some []⟩
    let a : Chunk := ⟨"a", [], Bytes.ascii "x", 0⟩
    let b : Chunk := ⟨"b,1", [], Bytes.ascii "\x0c\n", 0⟩
    let l := Ledger.after p start
      [⟨.append, assemble [a]⟩, ⟨.createOnly, assemble [a]⟩, ⟨.overwrite, assemble [b]⟩,
        ⟨.append, assemble [a, b]⟩]
    start.pathExists p = false ∧
      l.done = [⟨.append, assemble [a]⟩, ⟨.overwrite, assemble [b]⟩, ⟨.append, assemble [a, b]⟩] ∧
      l.fs.read p = .ok (assemble [b, a, b]) ∧
      Section.readAll (assemble [b, a, b]) = .ok ([b, a, b].map Section.ofChunk) := by
  intro p start a b l
  have hstart : start.pathExists p = false := by decide
  have hdone : l.done =
      [⟨.append, assemble [a]⟩, ⟨.overwrite, assemble [b]⟩, ⟨.append, assemble [a, b]⟩] := by
    decide
  have hstanding : standing l.done = [⟨.overwrite, assemble [b]⟩, ⟨.append, assemble [a, b]⟩] := by
    rw [hdone]
    decide
  have hfits : ∀ c ∈ [a, b],
      Bytes.newline ∉ Utf8.encode c.fileName ∧ c.bytes.length < Decimal.limit := by
    decide
  have hmade : List.Forall₂ Write.Assembles (standing l.done) [[b], [a, b]] := by
    rw [hstanding]
    exact .cons ⟨rfl, fun c hc => hfits c (List.mem_cons_of_mem a hc)⟩ (.cons ⟨rfl, hfits⟩ .nil)
  obtain ⟨-, -, hread, hsections⟩ := content_over_history hstart
    [⟨.append, assemble [a]⟩, ⟨.createOnly, assemble [a]⟩, ⟨.overwrite, assemble [b]⟩,
      ⟨.append, assemble [a, b]⟩]
  have hjoined : joined (standing l.done) = assemble [b, a, b] := (joined_eq_assemble hmade).1
  rw [← hjoined]
  exact ⟨hstart, hdone, hread (by rw [hdone]; simp), hsections _ hmade⟩

end Reading

end GoTags
