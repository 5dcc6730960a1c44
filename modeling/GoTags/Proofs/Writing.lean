import GoTags.Files.Persist
import GoTags.Proofs.Walking

/-!
# What a write changes

A write opens its destination as the policy says and then changes one file. Where that
file is can be told beforehand, by following the path of the destination.

**Input.** Bytes, a destination and a policy.

**Results.**
* `openFile_eq_ok_iff`: what is opened, as the way of the policy finds it.
* `opens_iff`: the same file is found by following the path, without opening anything.
* `persist_eq`: opening the destination decides about a write.
* `read_of_overwrite`: a file that was replaced holds what replaced it.
* `persist_of_opens`, `persist_of_not_opens`: a write by what can be opened.
* `persist_cases`: a write changes nothing, or one file as its policy says.
* `persist_by_policy`: what a write does, by how it ends.
-/

namespace GoTags

namespace FileSystem

section Places

variable {fs : FileSystem} {policy : WritePolicy} {p : Path} {place : Place}

/-- What is opened is a file, or one that may be made; a policy that only creates opens
nothing that is there. -/
theorem openFile_eq_ok_iff {content : Bytes} :
    fs.openFile policy p = .ok (place, content) ↔
      ∃ old : Option Bytes, fs.spot policy.purpose p = .ok (.forFile place old) ∧
        (policy = .createOnly → old = none) ∧ old.getD [] = content := by
  unfold openFile
  cases fs.spot policy.purpose p with
  | error fault => simp
  | ok spot =>
      cases spot with
      | free q => simp [Lookup.Spot.free_eq_forFile_iff]
      | taken q entry =>
          cases entry with
          | dir => cases policy <;> simp [Ne.symm Lookup.Spot.forFile_ne_dir]
          | link target => cases policy <;> simp [Ne.symm Lookup.Spot.forFile_ne_link]
          | file content => cases policy <;> simp [Lookup.Spot.file_eq_forFile_iff]

/-- What is opened is never the root. -/
theorem openFile_ne_root {content : Bytes} (h : fs.openFile policy p = .ok (place, content)) :
    place ≠ [] := by
  obtain ⟨old, hspot, -⟩ := openFile_eq_ok_iff.mp h
  exact (arrives_of_spot hspot).forFile_ne_root

/-- A path that leads to a file, or to where one may be made, does so whatever it is taken
for. -/
theorem spot_forFile_self {purpose purpose' : Lookup.Purpose} {old : Option Bytes}
    (hlink : purpose'.keepsLink = true → purpose.keepsLink = true)
    (h : fs.spot purpose p = .ok (.forFile place old)) :
    fs.spot purpose' p = .ok (.forFile place old) :=
  spot_forFile hlink (arrives_of_spot h).forFile_at (fun _ _ => rfl) rfl h

theorem at?_put_self (fs : FileSystem) (e : Entry) {place : Place} (h : place ≠ []) :
    (fs.put place e).store.at? place = some e :=
  Store.at?_put_self h fs.store e

theorem at?_put_of_ne (fs : FileSystem) (e : Entry) {place q : Place} (h : q ≠ place) :
    (fs.put place e).store.at? q = fs.store.at? q :=
  Store.at?_put_of_ne h fs.store e

end Places

end FileSystem

section Persist

/-- Opening the destination decides about a write. -/
theorem persist_eq (data : Bytes) (p : Path) (policy : WritePolicy) (fs : FileSystem) :
    persist data p policy fs =
      match fs.openFile policy p with
      | .error cause => (.error (policy.fault p cause), fs)
      | .ok (place, old) =>
          (.ok ⟨p, policy, data.length, !fs.pathExists p⟩,
            fs.put place (.file (policy.result old data))) := by
  unfold persist FileSystem.write
  cases fs.openFile policy p with
  | error cause => rfl
  | ok opened => rfl

/-- The file that a destination leads to under a policy, if any: one that stands at a
place, or that may be made there. A policy that only creates asks that nothing at all
stands at the destination, not even a link. -/
structure WritePolicy.Opens (policy : WritePolicy) (fs : FileSystem) (p : Path) (place : Place)
    (old : Option Bytes) : Prop where
  leads : fs.spot .find p = .ok (.forFile place old)
  unclaimed : policy = .createOnly → fs.spot .entry p = .ok (.free place)

variable {policy : WritePolicy} {fs : FileSystem} {p : Path} {place : Place} {old : Option Bytes}

theorem WritePolicy.opens_iff :
    policy.Opens fs p place old ↔
      fs.spot policy.purpose p = .ok (.forFile place old) ∧ (policy = .createOnly → old = none) := by
  constructor
  · rintro ⟨hleads, hunclaimed⟩
    cases policy with
    | createOnly =>
        have hentry : fs.spot .entry p = .ok (.forFile place none) := hunclaimed rfl
        have hold := (FileSystem.arrives_of_spot hleads).forFile_at
        rw [(FileSystem.arrives_of_spot hentry).forFile_at] at hold
        cases old with
        | some content => cases hold
        | none => exact ⟨FileSystem.spot_forFile_self (fun _ => rfl) hentry, fun _ => rfl⟩
    | append => exact ⟨FileSystem.spot_forFile_self (by decide) hleads, by simp⟩
    | overwrite => exact ⟨FileSystem.spot_forFile_self (by decide) hleads, by simp⟩
  · rintro ⟨hspot, hold⟩
    refine ⟨FileSystem.spot_forFile_self (by simp [Lookup.Purpose.keepsLink]) hspot, ?_⟩
    rintro rfl
    rw [hold rfl] at hspot
    exact FileSystem.spot_forFile_self (fun _ => rfl) hspot

theorem WritePolicy.openFile_eq_ok_iff_opens {content : Bytes} :
    fs.openFile policy p = .ok (place, content) ↔
      ∃ old, policy.Opens fs p place old ∧ old.getD [] = content := by
  rw [FileSystem.openFile_eq_ok_iff]
  simp only [WritePolicy.opens_iff, and_assoc]

/-- What a successful write has done: the destination led to `place`, where `old` stood,
and `content` stands there now. -/
structure Written (data : Bytes) (p : Path) (policy : WritePolicy) (fs : FileSystem)
    (place : Place) (old : Option Bytes) (content : Bytes) (report : WriteReport)
    (after : FileSystem) : Prop where
  opened : policy.Opens fs p place old
  stood : fs.store.at? place = old.map .file
  stands : after.store.at? place = some (.file content)
  appended : policy = .append → content = old.getD [] ++ data
  replaced : policy ≠ .append → content = data
  elsewhere : ∀ q, q ≠ place → after.store.at? q = fs.store.at? q
  workDir : after.workDir = fs.workDir
  read : after.read p = .ok content
  reported : report.path = p ∧ report.policy = policy ∧ report.bytesWritten = data.length
  created : report.created = true ↔ fs.store.at? place = none

/-- The destination is said to exist exactly if it has to be made and something is there. -/
theorem fault_eq_destinationExists_iff {cause : FileFault}
    (h : fs.openFile policy p = .error cause) (q : Path) :
    policy.fault p cause = .destinationExists q ↔
      policy = .createOnly ∧ q = p ∧ ∃ place entry, fs.spot .make p = .ok (.taken place entry) := by
  cases policy with
  | append => simp [WritePolicy.fault]
  | overwrite => simp [WritePolicy.fault]
  | createOnly =>
      unfold FileSystem.openFile at h
      cases hspot : fs.spot .make p with
      | error fault =>
          simp only [WritePolicy.purpose, hspot, Except.error.injEq] at h
          subst h
          have hfault : fault ≠ .alreadyExists := by
            rintro rfl
            exact fs.spot_ne_alreadyExists .make p hspot
          simp [WritePolicy.fault, hfault]
      | ok spot =>
          cases spot with
          | free place => simp [WritePolicy.purpose, hspot] at h
          | taken place entry =>
              simp only [WritePolicy.purpose, hspot, Except.error.injEq] at h
              subst h
              simp [WritePolicy.fault, eq_comm]

theorem pathExists_eq (hleads : fs.spot .find p = .ok (.forFile place old)) :
    fs.pathExists p = old.isSome := by
  unfold FileSystem.pathExists FileSystem.find
  rw [hleads]
  cases old <;> rfl

/-- What writing to an opened file does. -/
theorem written_put (data : Bytes) (h : policy.Opens fs p place old) :
    Written data p policy fs place old (policy.result (old.getD []) data)
      ⟨p, policy, data.length, !fs.pathExists p⟩
      (fs.put place (.file (policy.result (old.getD []) data))) := by
  have harrives := FileSystem.arrives_of_spot h.leads
  have hstands := fs.at?_put_self (.file (policy.result (old.getD []) data)) harrives.forFile_ne_root
  have helsewhere : ∀ q, q ≠ place →
      (fs.put place (.file (policy.result (old.getD []) data))).store.at? q = fs.store.at? q :=
    fun q hq => fs.at?_put_of_ne _ hq
  refine ⟨h, harrives.forFile_at, hstands, ?_, ?_, helsewhere, rfl, ?_, ⟨rfl, rfl, rfl⟩, ?_⟩
  · rintro rfl
    rfl
  · intro hpolicy
    cases policy with
    | append => exact absurd rfl hpolicy
    | createOnly => rfl
    | overwrite => rfl
  · -- the way to the file is as it was, since nothing else has changed
    have hafter : (fs.put place (.file (policy.result (old.getD []) data))).spot .find p =
        .ok (.forFile place (some (policy.result (old.getD []) data))) :=
      FileSystem.spot_forFile (by simp) hstands helsewhere rfl h.leads
    exact (FileSystem.read_eq_ok_iff _ p _).mpr ⟨place, hafter⟩
  · rw [pathExists_eq h.leads, harrives.forFile_at]
    cases old <;> simp

/-- A file that was replaced holds what replaced it. -/
theorem FileSystem.read_of_overwrite {data : Bytes} {after : FileSystem}
    (h : fs.write .overwrite p data = .ok after) : after.read p = .ok data := by
  unfold FileSystem.write at h
  cases hopen : fs.openFile .overwrite p with
  | error cause =>
      rw [hopen] at h
      cases h
  | ok opened =>
      obtain ⟨place, old⟩ := opened
      rw [hopen] at h
      cases h
      obtain ⟨stood, hopens, rfl⟩ := WritePolicy.openFile_eq_ok_iff_opens.mp hopen
      exact (written_put data hopens).read

/-- A write to a file that can be opened. -/
theorem persist_of_opens (data : Bytes) (h : policy.Opens fs p place old) :
    persist data p policy fs =
      (.ok ⟨p, policy, data.length, !fs.pathExists p⟩,
        fs.put place (.file (policy.result (old.getD []) data))) := by
  rw [persist_eq, WritePolicy.openFile_eq_ok_iff_opens.mpr ⟨old, h, rfl⟩]

/-- A write that can open nothing. -/
theorem persist_of_not_opens (data : Bytes) (h : ∀ place old, ¬policy.Opens fs p place old) :
    ∃ fault, persist data p policy fs = (.error fault, fs) := by
  rw [persist_eq]
  cases hopen : fs.openFile policy p with
  | error cause => exact ⟨_, rfl⟩
  | ok opened =>
      obtain ⟨old, hopens, -⟩ := WritePolicy.openFile_eq_ok_iff_opens.mp hopen
      exact absurd hopens (h _ _)

/-- A write fails and changes nothing, or does what its policy says. -/
theorem persist_cases (data : Bytes) (p : Path) (policy : WritePolicy) (fs : FileSystem) :
    (∃ fault, persist data p policy fs = (.error fault, fs)) ∨
      ∃ report after place old content, persist data p policy fs = (.ok report, after) ∧
        Written data p policy fs place old content report after := by
  by_cases h : ∃ place old, policy.Opens fs p place old
  · obtain ⟨place, old, hopens⟩ := h
    exact Or.inr ⟨_, _, place, old, _, persist_of_opens data hopens, written_put data hopens⟩
  · push Not at h
    exact Or.inl (persist_of_not_opens data h)

/-- What a file holds after a write. -/
theorem Written.content_eq {data content : Bytes} {report : WriteReport} {after : FileSystem}
    (h : Written data p policy fs place old content report after) :
    content = policy.result (old.getD []) data := by
  cases policy with
  | append => exact h.appended rfl
  | createOnly => exact h.replaced (by simp)
  | overwrite => exact h.replaced (by simp)

/-- **What a write does, by how it ends.** A write that fails changes nothing, and fails
because its policy opens nothing; the destination is said to exist exactly if it has to be
made and something is there. A write that succeeds changes the file that its destination
leads to, as its policy says, and no other. -/
theorem persist_by_policy (data : Bytes) (p : Path) (policy : WritePolicy) (fs : FileSystem) :
    match persist data p policy fs with
    | (.error fault, after) =>
        after = fs ∧ (∀ place old, ¬policy.Opens fs p place old) ∧
          ∀ q, fault = .destinationExists q ↔
            policy = .createOnly ∧ q = p ∧ ∃ place entry, fs.spot .make p = .ok (.taken place entry)
    | (.ok report, after) =>
        ∃ place old content, Written data p policy fs place old content report after := by
  rw [persist_eq]
  cases hopen : fs.openFile policy p with
  | error cause =>
      refine ⟨rfl, ?_, fault_eq_destinationExists_iff hopen⟩
      intro place old hopens
      obtain ⟨hspot, hold⟩ := WritePolicy.opens_iff.mp hopens
      have hok := FileSystem.openFile_eq_ok_iff.mpr ⟨old, hspot, hold, rfl⟩
      rw [hopen] at hok
      cases hok
  | ok opened =>
      obtain ⟨place, content⟩ := opened
      obtain ⟨old, hspot, hold, rfl⟩ := FileSystem.openFile_eq_ok_iff.mp hopen
      exact ⟨place, old, _, written_put data (WritePolicy.opens_iff.mpr ⟨hspot, hold⟩)⟩

-- a link to nothing: appending makes the file that it leads to, creating is refused
example :
    let fs : FileSystem := ⟨Store.empty.put [[0x61]] (.link [0x62]), some []⟩
    (persist [0x78] [0x61] .append fs).1 = .ok ⟨[0x61], .append, 1, true⟩ ∧
      (persist [0x78] [0x61] .append fs).2.store.at? [[0x62]] = some (.file [0x78]) ∧
      (persist [0x78] [0x61] .createOnly fs).1 = .error (.destinationExists [0x61]) := by
  decide

end Persist

end GoTags
