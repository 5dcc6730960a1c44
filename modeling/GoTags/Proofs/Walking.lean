import GoTags.Files.System
import Mathlib.Tactic

/-!
# Ways through stored files

**Input.** A directory to start from and the steps of a path.

**Results.**
* `arrives_of_walkLinks`: a way that ends well consists of steps to directories,
  steps along links, and perhaps one last step to a name.
* `Arrives.named`: a way ends at a directory or at a name in one.
* `Arrives.forFile_last`: a way to a file ends in a step to a name or upwards.
* `walkLinks_pads`: steps that stay where they are, put in before others, do not
  change where a way ends.
* `spot_forFile`: a path that leads to a file, or to where one may be made, does so
  whatever it is taken for, and still does after the file has changed.
* `read_elsewhere`: what is read at one place does not depend on a file at another.
-/

namespace GoTags

/-- Steps that stay where they are. -/
def Step.isIdle : Step → Bool
  | .here => true
  | .slash => true
  | .up => false
  | .name _ => false

/-- Directories and links are still where they were. -/
def Store.KeepsWays (s s' : Store) : Prop :=
  ∀ q e, s.at? q = some e → (∀ content, e ≠ .file content) → s'.at? q = some e

/-- A place for a file is neither a directory nor a link. -/
theorem Store.keepsWays_of_file {s s' : Store} {place : Place} {old : Option Bytes}
    (hold : s.at? place = old.map .file) (hother : ∀ q, q ≠ place → s'.at? q = s.at? q) :
    s.KeepsWays s' := by
  intro q e hat hfile
  rw [hother, hat]
  rintro rfl
  rw [hat] at hold
  cases old with
  | none => cases hold
  | some content => exact hfile content (Option.some.inj hold)

namespace Lookup

section Arriving

/-- The steps of a way from a directory to a spot. -/
inductive Arrives (s : Store) (purpose : Purpose) : Place → List Step → Spot → Prop
  | done {here : Place} : Arrives s purpose here [] (.taken here .dir)
  | idle {here : Place} {x : Step} {rest : List Step} {spot : Spot} (hx : x.isIdle = true)
      (h : Arrives s purpose here rest spot) : Arrives s purpose here (x :: rest) spot
  | up {here : Place} {rest : List Step} {spot : Spot}
      (h : Arrives s purpose here.dropLast rest spot) : Arrives s purpose here (.up :: rest) spot
  | dir {here : Place} {n : Bytes} {rest : List Step} {spot : Spot}
      (hat : s.at? (here ++ [n]) = some .dir) (h : Arrives s purpose (here ++ [n]) rest spot) :
      Arrives s purpose here (.name n :: rest) spot
  | link {here : Place} {n : Bytes} {target : Path} {rest : List Step} {spot : Spot}
      (hat : s.at? (here ++ [n]) = some (.link target))
      (h : Arrives s purpose (start here target) (target.steps ++ rest) spot) :
      Arrives s purpose here (.name n :: rest) spot
  | file {here : Place} {n content : Bytes} (hat : s.at? (here ++ [n]) = some (.file content)) :
      Arrives s purpose here [.name n] (.taken (here ++ [n]) (.file content))
  | kept {here : Place} {n : Bytes} {target : Path}
      (hat : s.at? (here ++ [n]) = some (.link target)) (hkeeps : purpose.keepsLink = true) :
      Arrives s purpose here [.name n] (.taken (here ++ [n]) (.link target))
  | free {here : Place} {n : Bytes} (hat : s.at? (here ++ [n]) = none) :
      Arrives s purpose here [.name n] (.free (here ++ [n]))

variable {s : Store} {purpose : Purpose}

theorem arrives_of_walk {follow : Place → List Step → Except FileFault Spot}
    (hfollow : ∀ {here steps spot}, follow here steps = .ok spot →
      Arrives s purpose here steps spot)
    {steps : List Step} {here : Place} {spot : Spot}
    (h : walk s purpose follow here steps = .ok spot) : Arrives s purpose here steps spot := by
  induction steps generalizing here with
  | nil =>
      rw [walk] at h
      cases h
      exact .done
  | cons x rest ih =>
      cases x with
      | here =>
          rw [walk] at h
          exact .idle rfl (ih h)
      | slash =>
          rw [walk] at h
          exact .idle rfl (ih h)
      | up =>
          rw [walk] at h
          exact .up (ih h)
      | name n =>
          rw [walk] at h
          split at h
          · cases h
          · split at h
            · cases h
            · split at h
              · rename_i hat
                exact .dir hat (ih h)
              · rename_i content hat
                split at h
                · rename_i hrest
                  subst hrest
                  cases h
                  exact .file hat
                · cases h
              · rename_i target hat
                split at h
                · rename_i hkeeps
                  obtain ⟨rfl, hkeeps⟩ := hkeeps
                  cases h
                  exact .kept hat hkeeps
                · exact .link hat (hfollow h)
              · rename_i hat
                split at h
                · rename_i hrest
                  subst hrest
                  cases h
                  exact .free hat
                · cases h

/-- What the steps of a way that ends well are. -/
theorem arrives_of_walkLinks {n : Nat} {here : Place} {steps : List Step} {spot : Spot}
    (h : walkLinks s purpose n here steps = .ok spot) : Arrives s purpose here steps spot := by
  induction n generalizing here steps spot with
  | zero =>
      rw [walkLinks] at h
      refine arrives_of_walk ?_ h
      intro here steps spot h
      cases h
  | succ n ih =>
      rw [walkLinks] at h
      exact arrives_of_walk ih h

/-- A spot is a directory, or a name in one. -/
def Spot.Named : Spot → Prop
  | .taken place entry => entry = .dir ∨ place ≠ []
  | .free place => place ≠ []

theorem Arrives.named {here : Place} {steps : List Step} {spot : Spot}
    (h : Arrives s purpose here steps spot) : spot.Named := by
  induction h with
  | done => exact Or.inl rfl
  | idle _ _ ih => exact ih
  | up _ ih => exact ih
  | dir _ _ ih => exact ih
  | link _ _ ih => exact ih
  | file _ => exact Or.inr (by simp)
  | kept _ _ => exact Or.inr (by simp)
  | free _ =>
      rw [Spot.Named]
      simp

theorem exists_last_cons {x : Step} {rest : List Step}
    (h : ∃ y ∈ rest.getLast?, y.isIdle = false) :
    ∃ y ∈ (x :: rest).getLast?, y.isIdle = false := by
  obtain ⟨y, hy, hidle⟩ := h
  refine ⟨y, ?_, hidle⟩
  cases rest with
  | nil => cases hy
  | cons z rest => rwa [List.getLast?_cons_cons]

/-- The spot of a file that stands at a place, or that may be made there. -/
def Spot.forFile (place : Place) : Option Bytes → Spot
  | some content => .taken place (.file content)
  | none => .free place

theorem Spot.forFile_ne_dir {place here : Place} {old : Option Bytes} :
    Spot.forFile place old ≠ .taken here .dir := by
  cases old <;> simp [forFile]

theorem Spot.forFile_ne_link {place here : Place} {old : Option Bytes} {target : Path} :
    Spot.forFile place old ≠ .taken here (.link target) := by
  cases old <;> simp [forFile]

theorem Spot.free_eq_forFile_iff {place q : Place} {old : Option Bytes} :
    Spot.free q = .forFile place old ↔ q = place ∧ old = none := by
  cases old <;> simp [forFile]

theorem Spot.file_eq_forFile_iff {place q : Place} {content : Bytes} {old : Option Bytes} :
    Spot.taken q (.file content) = .forFile place old ↔ q = place ∧ old = some content := by
  cases old <;> simp [forFile, eq_comm]

/-- A way to a file, or to where one may be made, does not end in an idle step. -/
theorem Arrives.forFile_last {here place : Place} {steps : List Step} {old : Option Bytes}
    (h : Arrives s purpose here steps (.forFile place old)) :
    ∃ x ∈ steps.getLast?, x.isIdle = false := by
  generalize hspot : Spot.forFile place old = spot at h
  induction h with
  | done => exact absurd hspot Spot.forFile_ne_dir
  | idle _ _ ih => exact exists_last_cons (ih hspot)
  | up _ ih => exact exists_last_cons (ih hspot)
  | dir _ _ ih => exact exists_last_cons (ih hspot)
  | @link _ n _ rest _ _ _ ih =>
      cases rest with
      | nil => exact ⟨.name n, rfl, rfl⟩
      | cons y rest =>
          obtain ⟨x, hx, hidle⟩ := ih hspot
          rw [List.getLast?_append_of_ne_nil _ (by simp)] at hx
          exact exists_last_cons ⟨x, hx, hidle⟩
  | @file _ n _ _ => exact ⟨.name n, rfl, rfl⟩
  | kept _ _ => exact absurd hspot Spot.forFile_ne_link
  | @free _ n _ => exact ⟨.name n, rfl, rfl⟩

theorem Arrives.forFile_ne_root {here place : Place} {steps : List Step} {old : Option Bytes}
    (h : Arrives s purpose here steps (.forFile place old)) : place ≠ [] := by
  cases old with
  | none => exact h.named
  | some content => exact h.named.resolve_left (by simp)

/-- What stands at the end of such a way is the file, or nothing. -/
theorem Arrives.forFile_at {here place : Place} {steps : List Step} {old : Option Bytes}
    (h : Arrives s purpose here steps (.forFile place old)) : s.at? place = old.map .file := by
  generalize hspot : Spot.forFile place old = spot at h
  induction h with
  | done => exact absurd hspot Spot.forFile_ne_dir
  | idle _ _ ih => exact ih hspot
  | up _ ih => exact ih hspot
  | dir _ _ ih => exact ih hspot
  | link _ _ ih => exact ih hspot
  | file hat =>
      cases old with
      | none => cases hspot
      | some content =>
          cases hspot
          exact hat
  | kept _ _ => exact absurd hspot Spot.forFile_ne_link
  | free hat =>
      cases old with
      | none =>
          cases hspot
          exact hat
      | some content => cases hspot

end Arriving

section Faults

variable {s : Store} {purpose : Purpose}

/-- No way ends because something is there already. -/
theorem walk_ne_alreadyExists {follow : Place → List Step → Except FileFault Spot}
    (hfollow : ∀ here steps, follow here steps ≠ .error .alreadyExists)
    (here : Place) (steps : List Step) :
    walk s purpose follow here steps ≠ .error .alreadyExists := by
  induction steps generalizing here with
  | nil => simp [walk]
  | cons x rest ih =>
      cases x with
      | here => exact ih here
      | slash => exact ih here
      | up => exact ih here.dropLast
      | name n =>
          rw [walk]
          split
          · simp
          · split
            · simp
            · split
              · exact ih _
              · split <;> simp
              · split
                · simp
                · exact hfollow _ _
              · split <;> simp

theorem walkLinks_ne_alreadyExists (n : Nat) (here : Place) (steps : List Step) :
    walkLinks s purpose n here steps ≠ .error .alreadyExists := by
  induction n generalizing here steps with
  | zero => exact walk_ne_alreadyExists (by simp) here steps
  | succ n ih => exact walk_ne_alreadyExists ih here steps

end Faults

section Padding

/-- The second steps are the first with idle ones put in, never at the end. -/
inductive Pads : List Step → List Step → Prop
  | nil : Pads [] []
  | keep {a b : List Step} (x : Step) (h : Pads a b) : Pads (x :: a) (x :: b)
  | idle {a b : List Step} {x : Step} (hx : x.isIdle = true) (hne : a ≠ []) (h : Pads a b) :
      Pads a (x :: b)

theorem Pads.refl : ∀ a : List Step, Pads a a
  | [] => .nil
  | x :: a => .keep x (Pads.refl a)

theorem Pads.append {a b : List Step} (h : Pads a b) :
    ∀ front : List Step, Pads (front ++ a) (front ++ b)
  | [] => h
  | x :: front => .keep x (Pads.append h front)

theorem Pads.eq_nil_iff {a b : List Step} (h : Pads a b) : a = [] ↔ b = [] := by
  cases h with
  | nil => exact Iff.rfl
  | keep x _ => simp
  | idle _ hne _ => simp [hne]

theorem pads_filter : ∀ steps : List Step, (∀ x ∈ steps.getLast?, x.isIdle = false) →
    Pads (steps.filter fun x => !x.isIdle) steps
  | [], _ => .nil
  | [x], h => by
      have hx : x.isIdle = false := h x rfl
      rw [List.filter_cons_of_pos (by simp [hx])]
      exact .keep x .nil
  | x :: y :: rest, h => by
      have hlast : ∀ z ∈ (y :: rest).getLast?, z.isIdle = false := by
        rwa [List.getLast?_cons_cons] at h
      have ih := pads_filter (y :: rest) hlast
      cases hx : x.isIdle with
      | false =>
          rw [List.filter_cons_of_pos (by simp [hx])]
          exact .keep x ih
      | true =>
          rw [List.filter_cons_of_neg (by simp [hx])]
          exact .idle hx (fun hnil => by simpa using ih.eq_nil_iff.mp hnil) ih

theorem walk_idle {s : Store} {purpose : Purpose}
    {follow : Place → List Step → Except FileFault Spot} {x : Step} (hx : x.isIdle = true)
    (here : Place) (rest : List Step) :
    walk s purpose follow here (x :: rest) = walk s purpose follow here rest := by
  cases x with
  | here => rw [walk]
  | slash => rw [walk]
  | up => simp [Step.isIdle] at hx
  | name n => simp [Step.isIdle] at hx

theorem walk_pads {s : Store} {follow follow' : Place → List Step → Except FileFault Spot}
    (hfollow : ∀ here a b, Pads a b → follow here a = follow' here b)
    {a b : List Step} (h : Pads a b) (here : Place) :
    walk s .find follow here a = walk s .find follow' here b := by
  induction h generalizing here with
  | nil => rw [walk, walk]
  | idle hx _ _ ih => rw [walk_idle hx, ih]
  | @keep a b x h ih =>
      cases x with
      | here => rw [walk, walk, ih]
      | slash => rw [walk, walk, ih]
      | up => rw [walk, walk, ih]
      | name n =>
          rw [walk, walk]
          simp only [Purpose.makesFile, Purpose.keepsLink, Bool.false_eq_true, false_and,
            and_false, if_false, h.eq_nil_iff, ih]
          split
          · rfl
          · split
            · rfl
            · rfl
            · exact hfollow _ _ _ (h.append _)
            · rfl

/-- Steps that stay where they are do not change where a way ends. -/
theorem walkLinks_pads {s : Store} {a b : List Step} (h : Pads a b) (n : Nat) (here : Place) :
    walkLinks s .find n here a = walkLinks s .find n here b := by
  induction n generalizing a b here with
  | zero =>
      rw [walkLinks]
      exact walk_pads (fun _ _ _ _ => rfl) h here
  | succ n ih =>
      rw [walkLinks]
      exact walk_pads (fun here a b hab => ih hab here) h here

end Padding

section Rerouting

variable {s s' : Store} {purpose purpose' : Purpose} {place : Place} {old new : Option Bytes}
  {follow follow' : Place → List Step → Except FileFault Spot}

/-- A step to a name on a way to a file is the last one, or leads to a directory, or along
a link. -/
theorem walk_name_forFile_iff {here : Place} {n : Bytes} {rest : List Step} :
    walk s purpose follow here (.name n :: rest) = .ok (.forFile place old) ↔
      ¬(purpose.makesFile = true ∧ rest = [.slash]) ∧ ¬nameLimit < n.length ∧
        (rest = [] ∧ here ++ [n] = place ∧ s.at? (here ++ [n]) = old.map .file ∨
          s.at? (here ++ [n]) = some .dir ∧
            walk s purpose follow (here ++ [n]) rest = .ok (.forFile place old) ∨
          ∃ target, s.at? (here ++ [n]) = some (.link target) ∧
            ¬(rest = [] ∧ purpose.keepsLink = true) ∧
            follow (start here target) (target.steps ++ rest) = .ok (.forFile place old)) := by
  rw [walk]
  by_cases hslash : purpose.makesFile = true ∧ rest = [.slash]
  · simp [hslash]
  · by_cases hlong : nameLimit < n.length
    · simp [hslash, hlong]
    · rw [if_neg hslash, if_neg hlong, and_iff_right hslash, and_iff_right hlong]
      cases hat : s.at? (here ++ [n]) with
      | none =>
          by_cases hrest : rest = []
          · cases old <;> simp [hrest, Spot.free_eq_forFile_iff]
          · simp [hrest]
      | some entry =>
          cases entry with
          | dir => cases old <;> simp
          | file content =>
              by_cases hrest : rest = []
              · cases old <;> simp [hrest, Spot.file_eq_forFile_iff, @eq_comm _ content]
              · simp [hrest]
          | link target =>
              by_cases hkeeps : rest = [] ∧ purpose.keepsLink = true
              · cases old <;> simp [hkeeps, Spot.forFile]
              · cases old <;> simp [hkeeps]

/-- What else a way to a file comes to: the file, or, for a purpose that keeps links, a
link that the way went along last. -/
def Reroutes (purpose purpose' : Purpose) (place : Place) (new : Option Bytes)
    (found : Except FileFault Spot) : Prop :=
  found = .ok (.forFile place new) ∨
    (purpose'.keepsLink = true ∧ purpose.keepsLink = false ∧
      ∃ q target, found = .ok (.taken q (.link target)))

/-- A way to a file, or to where one may be made, is still there if directories and links
are. -/
theorem walk_forFile (hkeeps : s.KeepsWays s') (hnew : s'.at? place = new.map .file)
    (harrives : ∀ {here steps spot}, follow here steps = .ok spot →
      Arrives s purpose here steps spot)
    (hfollow : ∀ {here steps}, follow here steps = .ok (.forFile place old) →
      Reroutes purpose purpose' place new (follow' here steps))
    {steps : List Step} {here : Place}
    (h : walk s purpose follow here steps = .ok (.forFile place old)) :
    Reroutes purpose purpose' place new (walk s' purpose' follow' here steps) := by
  induction steps generalizing here with
  | nil =>
      rw [walk, Except.ok.injEq] at h
      exact absurd h.symm Spot.forFile_ne_dir
  | cons x rest ih =>
      have hlast := (arrives_of_walk harrives h).forFile_last
      cases x with
      | here =>
          rw [walk] at h ⊢
          exact ih h
      | slash =>
          rw [walk] at h ⊢
          exact ih h
      | up =>
          rw [walk] at h ⊢
          exact ih h
      | name n =>
          have hslash : ¬(purpose'.makesFile = true ∧ rest = [.slash]) := by
            rintro ⟨-, rfl⟩
            simp [Step.isIdle] at hlast
          obtain ⟨-, hshort, h⟩ := walk_name_forFile_iff.mp h
          rcases h with ⟨hrest, hplace, -⟩ | ⟨hat, h⟩ | ⟨target, hat, hfollows, h⟩
          · refine Or.inl (walk_name_forFile_iff.mpr ⟨hslash, hshort, Or.inl ⟨hrest, hplace, ?_⟩⟩)
            rw [hplace, hnew]
          · have hdir := hkeeps _ _ hat (by simp)
            rw [walk, if_neg hslash, if_neg hshort, hdir]
            exact ih h
          · have hlink := hkeeps _ _ hat (by simp)
            rw [walk, if_neg hslash, if_neg hshort, hlink]
            dsimp only
            split
            · rename_i hkept
              refine Or.inr ⟨hkept.2, ?_, _, _, rfl⟩
              simpa [hkept.1] using hfollows
            · exact hfollow h

theorem walkLinks_forFile (hkeeps : s.KeepsWays s') (hnew : s'.at? place = new.map .file) {n : Nat}
    {here : Place} {steps : List Step}
    (h : walkLinks s purpose n here steps = .ok (.forFile place old)) :
    Reroutes purpose purpose' place new (walkLinks s' purpose' n here steps) := by
  induction n generalizing here steps with
  | zero =>
      rw [walkLinks] at h ⊢
      exact walk_forFile hkeeps hnew (by simp) (by simp) h
  | succ n ih =>
      rw [walkLinks] at h ⊢
      exact walk_forFile hkeeps hnew arrives_of_walkLinks ih h

end Rerouting

end Lookup

namespace FileSystem

section Spots

/-- A path that may lead somewhere. -/
structure Admits (fs : FileSystem) (p : Path) : Prop where
  nul_not_mem : 0 ∉ p
  ne_nil : p ≠ []
  short : p.length < Lookup.pathLimit
  based : fs.workDir = none → p.isAbsolute = true

theorem spot_eq_ok_iff {fs : FileSystem} {purpose : Lookup.Purpose} {p : Path}
    {spot : Lookup.Spot} :
    fs.spot purpose p = .ok spot ↔
      fs.Admits p ∧ Lookup.walkLinks fs.store purpose Lookup.linkLimit
        (Lookup.start (fs.workDir.getD []) p) p.steps = .ok spot := by
  unfold FileSystem.spot Store.spot
  constructor
  · intro h
    split at h
    · cases h
    · rename_i hnul
      split at h
      · cases h
      · rename_i hnil
        split at h
        · cases h
        · rename_i hlength
          split at h
          · cases h
          · rename_i hbased
            refine ⟨⟨by simpa using hnul, hnil, Nat.not_le.mp hlength, ?_⟩, h⟩
            intro hnone
            by_contra habsolute
            exact hbased hnone (by simpa using habsolute)
  · rintro ⟨⟨hnul, hnil, hlength, hbased⟩, h⟩
    rw [if_neg (by simpa using hnul), if_neg hnil, if_neg (Nat.not_le.mpr hlength)]
    split
    · rename_i hnone habsolute
      simp [hbased hnone] at habsolute
    · exact h

theorem spot_ne_alreadyExists (fs : FileSystem) (purpose : Lookup.Purpose) (p : Path) :
    fs.spot purpose p ≠ .error .alreadyExists := by
  unfold FileSystem.spot Store.spot
  split
  · simp
  · split
    · simp
    · split
      · simp
      · split
        · simp
        · exact Lookup.walkLinks_ne_alreadyExists _ _ _

theorem arrives_of_spot {fs : FileSystem} {purpose : Lookup.Purpose} {p : Path}
    {spot : Lookup.Spot} (h : fs.spot purpose p = .ok spot) :
    Lookup.Arrives fs.store purpose (Lookup.start (fs.workDir.getD []) p) p.steps spot :=
  Lookup.arrives_of_walkLinks (spot_eq_ok_iff.mp h).2

theorem read_eq_ok_iff (fs : FileSystem) (p : Path) (content : Bytes) :
    fs.read p = .ok content ↔ ∃ place, fs.spot .find p = .ok (.taken place (.file content)) := by
  unfold read find
  cases fs.spot .find p with
  | error fault => simp
  | ok spot =>
      cases spot with
      | free place => simp
      | taken place entry => cases entry <;> simp

/-- A path that leads to a file, or to where one may be made, still does so if directories
and links are where they were; a purpose that keeps links may find one instead. -/
theorem spot_reroutes {fs fs' : FileSystem} {purpose purpose' : Lookup.Purpose} {p : Path}
    {place : Place} {old new : Option Bytes} (hkeeps : fs.store.KeepsWays fs'.store)
    (hnew : fs'.store.at? place = new.map .file) (hdir : fs'.workDir = fs.workDir)
    (h : fs.spot purpose p = .ok (.forFile place old)) :
    Lookup.Reroutes purpose purpose' place new (fs'.spot purpose' p) := by
  obtain ⟨⟨hnul, hnil, hlength, hbased⟩, hwalk⟩ := spot_eq_ok_iff.mp h
  have hadmits : fs'.Admits p := ⟨hnul, hnil, hlength, by rwa [hdir]⟩
  rcases Lookup.walkLinks_forFile hkeeps hnew hwalk with
    hfound | ⟨hkept, hfollowed, q, target, hfound⟩
  · exact Or.inl (spot_eq_ok_iff.mpr ⟨hadmits, by rwa [hdir]⟩)
  · exact Or.inr ⟨hkept, hfollowed, q, target, spot_eq_ok_iff.mpr ⟨hadmits, by rwa [hdir]⟩⟩

/-- A path that leads to a file, or to where one may be made, does so whatever it is taken
for, and still does after the file has changed. -/
theorem spot_forFile {fs fs' : FileSystem} {purpose purpose' : Lookup.Purpose} {p : Path}
    {place : Place} {old new : Option Bytes}
    (hlink : purpose'.keepsLink = true → purpose.keepsLink = true)
    (hnew : fs'.store.at? place = new.map .file)
    (hother : ∀ q, q ≠ place → fs'.store.at? q = fs.store.at? q)
    (hdir : fs'.workDir = fs.workDir)
    (h : fs.spot purpose p = .ok (.forFile place old)) :
    fs'.spot purpose' p = .ok (.forFile place new) := by
  have hkeeps := Store.keepsWays_of_file (arrives_of_spot h).forFile_at hother
  rcases spot_reroutes hkeeps hnew hdir h with hfound | ⟨hkept, hfollowed, -⟩
  · exact hfound
  · rw [hlink hkept] at hfollowed
    cases hfollowed

/-- What is read elsewhere does not depend on a place where a file stands or may be made. -/
theorem read_elsewhere {fs fs' : FileSystem} {p : Path} {place q : Place} {old : Option Bytes}
    {content : Bytes} (hold : fs.store.at? place = old.map .file)
    (hother : ∀ r, r ≠ place → fs'.store.at? r = fs.store.at? r)
    (hdir : fs'.workDir = fs.workDir) (hq : q ≠ place)
    (h : fs.spot .find p = .ok (.taken q (.file content))) : fs'.read p = .ok content := by
  have hleads : fs.spot .find p = .ok (.forFile q (some content)) := h
  have hstands := (arrives_of_spot hleads).forFile_at
  have hkeeps := Store.keepsWays_of_file hold hother
  rcases spot_reroutes hkeeps (by rw [hother q hq, hstands]) hdir hleads with hfound | ⟨hkept, -⟩
  · exact (read_eq_ok_iff fs' p content).mpr ⟨q, hfound⟩
  · cases hkept

end Spots

end FileSystem

end GoTags
