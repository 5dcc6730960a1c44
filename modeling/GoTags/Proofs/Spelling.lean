import GoTags.Proofs.Walking

/-!
# Spellings of a path

Two spellings of a path have the same components, but they need not lead to the
same place: a slash or a dot at the end asks for a directory, and a spelling may
be too long.

**Results.**
* `filter_steps`: up to idle ones, the steps of a path are those of its components.
* `not_trails_of_read`: a path that leads to a file does not ask for a directory.
* `read_eq_of_same`: two spellings that are short enough and do not ask for a
  directory lead to the same file.
* `read_of_same_iff`: if one spelling leads to a file, another one does so exactly
  if it is short enough and does not ask for a directory.
-/

namespace GoTags

namespace Bytes

theorem mem_iff_exists_splitOn {sep b : UInt8} (h : b ≠ sep) {bytes : Bytes} :
    b ∈ bytes ↔ ∃ part ∈ splitOn sep bytes, b ∈ part := by
  induction bytes with
  | nil => simp [splitOn]
  | cons c rest ih =>
      rw [splitOn]
      split
      · rename_i hc
        subst hc
        simp [h, ih]
      · cases hs : splitOn sep rest with
        | nil => exact absurd hs (splitOn_ne_nil sep rest)
        | cons part parts =>
            rw [hs] at ih
            simp only [List.mem_cons, exists_eq_or_imp] at ih ⊢
            rw [ih, or_assoc]

/-- The last part is empty after a separator at the end. -/
theorem getLast?_splitOn_eq_nil_iff (sep : UInt8) (bytes : Bytes) :
    (splitOn sep bytes).getLast? = some [] ↔ bytes = [] ∨ bytes.getLast? = some sep := by
  by_cases h : sep ∈ bytes
  · obtain ⟨part, rest, hbytes, hpart⟩ := List.eq_append_cons_of_mem h
    have hlength : rest.length < bytes.length := by
      rw [hbytes, List.length_append, List.length_cons]
      omega
    have ih := getLast?_splitOn_eq_nil_iff sep rest
    rw [hbytes, splitOn_append hpart, List.getLast?_cons_of_ne_nil (splitOn_ne_nil sep rest), ih,
      List.getLast?_append_of_ne_nil _ (by simp)]
    cases rest with
    | nil => simp
    | cons d rest => simp
  · rw [splitOn_of_not_mem h]
    have hlast : bytes.getLast? ≠ some sep := fun hsep => h (List.mem_of_getLast? hsep)
    simp [hlast]
termination_by bytes.length

end Bytes

namespace Path

section Spellings

/-- A path asks for a directory: it ends in a slash, or its last part is a dot. -/
def Trails (p : Path) : Prop :=
  ∃ part ∈ (Bytes.splitOn Bytes.slash p).getLast?, component? part = none

/-- The step that a component stands for. -/
def Component.step? : Component → Option Step
  | .root => none
  | .here => none
  | .up => some .up
  | .name n => some (.name n)

theorem filter_ofPart? (part : Bytes) :
    (Step.ofPart? part).filter (fun x => !x.isIdle) = (component? part).bind Component.step? := by
  unfold Step.ofPart? component?
  by_cases hnil : part = []
  · simp [hnil]
  · by_cases hdot : part = [Bytes.dot]
    · simp [hdot, Step.isIdle]
    · by_cases hup : part = [Bytes.dot, Bytes.dot]
      · simp [hup, Step.isIdle, Component.step?, Bytes.dot]
      · simp [hnil, hdot, hup, Step.isIdle, Component.step?]

/-- Up to idle ones, the steps of a path are those of its components. -/
theorem filter_steps (p : Path) :
    p.steps.filter (fun x => !x.isIdle) = p.components.filterMap Component.step? := by
  have hparts : ((Bytes.splitOn Bytes.slash p).filterMap Step.ofPart?).filter
      (fun x => !x.isIdle) =
        ((Bytes.splitOn Bytes.slash p).filterMap component?).filterMap Component.step? := by
    rw [List.filter_filterMap, List.filterMap_filterMap]
    congr 1
    funext part
    exact filter_ofPart? part
  have hslash : (if p.getLast? = some Bytes.slash then [Step.slash] else []).filter
      (fun x => !x.isIdle) = [] := by
    split <;> rfl
  unfold steps components
  dsimp only
  rw [List.filter_append, hparts, hslash, List.append_nil, List.filterMap_append]
  split
  · rfl
  · split <;> rfl

/-- A path asks for a directory exactly if it does not end in a step to a name or
upwards. -/
theorem not_trails_iff (p : Path) :
    ¬Trails p ↔ ∃ x ∈ p.steps.getLast?, x.isIdle = false := by
  obtain ⟨front, part, hparts⟩ :=
    (List.eq_nil_or_concat (Bytes.splitOn Bytes.slash p)).resolve_left
      (Bytes.splitOn_ne_nil Bytes.slash p)
  rw [List.concat_eq_append] at hparts
  have hslash := Bytes.getLast?_splitOn_eq_nil_iff Bytes.slash p
  unfold Trails steps
  rw [hparts] at hslash ⊢
  simp only [List.getLast?_concat, Option.some.injEq, Option.mem_def] at hslash ⊢
  by_cases hnil : part = []
  · -- an empty last part: the path is empty or ends in a slash
    rcases hslash.mp hnil with rfl | hlast
    · simp only [Bytes.splitOn] at hparts
      have hfront : front = [] := by
        cases front with
        | nil => rfl
        | cons x front => simp at hparts
      simp [hnil, hfront, component?, Step.ofPart?]
    · simp [hlast, hnil, component?, Step.isIdle]
  · have hlast : p.getLast? ≠ some Bytes.slash := fun h => hnil (hslash.mpr (Or.inr h))
    rw [if_neg hlast, List.append_nil, List.filterMap_append]
    by_cases hdot : part = [Bytes.dot]
    · simp [hdot, component?, Step.ofPart?, Step.isIdle]
    · by_cases hup : part = [Bytes.dot, Bytes.dot]
      · simp [hup, component?, Step.ofPart?, Step.isIdle, Bytes.dot]
      · simp [hnil, hdot, hup, component?, Step.ofPart?, Step.isIdle]

theorem isAbsolute_iff (p : Path) : p.isAbsolute = true ↔ Component.root ∈ p.components := by
  have hparts : Component.root ∉ (Bytes.splitOn Bytes.slash p).filterMap component? := by
    rw [List.mem_filterMap]
    rintro ⟨part, -, hpart⟩
    unfold component? at hpart
    split at hpart
    · cases hpart
    · split at hpart <;> cases hpart
  unfold components
  dsimp only
  rw [List.mem_append]
  cases isAbsolute p with
  | true => simp
  | false =>
      simp only [Bool.false_eq_true, if_false, hparts, or_false, false_iff]
      split <;> simp

theorem nul_mem_iff (p : Path) : 0 ∈ p ↔ ∃ n, Component.name n ∈ p.components ∧ 0 ∈ n := by
  have hfront : ∀ n, Component.name n ∉
      (if p.isAbsolute = true then [Component.root]
        else if (Bytes.splitOn Bytes.slash p).head? = some [Bytes.dot] then [Component.here]
        else []) := by
    intro n
    split
    · simp
    · split <;> simp
  rw [Bytes.mem_iff_exists_splitOn (by decide : (0 : UInt8) ≠ Bytes.slash)]
  unfold components
  dsimp only
  constructor
  · rintro ⟨part, hpart, hnul⟩
    refine ⟨part, List.mem_append_right _ (List.mem_filterMap.mpr ⟨part, hpart, ?_⟩), hnul⟩
    unfold component?
    rw [if_neg, if_neg]
    · rintro rfl
      simp [Bytes.dot] at hnul
    · rintro (rfl | rfl)
      · simp at hnul
      · simp [Bytes.dot] at hnul
  · rintro ⟨n, hn, hnul⟩
    rw [List.mem_append] at hn
    obtain ⟨part, hpart, hname⟩ := List.mem_filterMap.mp (hn.resolve_left (hfront n))
    unfold component? at hname
    split at hname
    · cases hname
    · split at hname
      · cases hname
      · cases hname
        exact ⟨n, hpart, hnul⟩

end Spellings

end Path

namespace FileSystem

section Reading

/-- The spot of a path that may lead to a file. -/
theorem spot_of_not_trails (fs : FileSystem) {p : Path} (hp : ¬p.Trails)
    (hlength : p.length < Lookup.pathLimit) :
    fs.spot .find p =
      if 0 ∈ p then .error .nulInPath
      else if fs.workDir = none ∧ p.isAbsolute = false then .error .notFound
      else
        Lookup.walkLinks fs.store .find Lookup.linkLimit (Lookup.start (fs.workDir.getD []) p)
          (p.components.filterMap Path.Component.step?) := by
  have hnil : p ≠ [] := by
    rintro rfl
    exact hp ⟨[], rfl, rfl⟩
  have hlast : ∀ x ∈ p.steps.getLast?, x.isIdle = false := by
    intro x hx
    obtain ⟨y, hy, hidle⟩ := (Path.not_trails_iff p).mp hp
    rw [Option.mem_def] at hx hy
    rw [hx, Option.some.injEq] at hy
    rwa [hy]
  unfold spot Store.spot
  rw [← Path.filter_steps, Lookup.walkLinks_pads (Lookup.pads_filter p.steps hlast)]
  simp only [List.contains_iff_mem, hnil, if_false, Nat.not_le.mpr hlength]
  cases fs.workDir with
  | none => cases p.isAbsolute <;> simp
  | some dir => simp

/-- A path that leads to a file does not ask for a directory, and is not too long. -/
theorem not_trails_of_read {fs : FileSystem} {p : Path} {content : Bytes}
    (h : fs.read p = .ok content) : ¬p.Trails ∧ p.length < Lookup.pathLimit := by
  obtain ⟨place, hspot⟩ := (read_eq_ok_iff fs p content).mp h
  have harrives : Lookup.Arrives fs.store .find _ p.steps (.forFile place (some content)) :=
    arrives_of_spot hspot
  exact ⟨(Path.not_trails_iff p).mpr harrives.forFile_last, (spot_eq_ok_iff.mp hspot).1.short⟩

/-- Two spellings that do not ask for a directory and are not too long lead to the
same file. -/
theorem read_eq_of_same (fs : FileSystem) {p q : Path} (h : Path.same p q = true)
    (hp : ¬p.Trails) (hplength : p.length < Lookup.pathLimit)
    (hq : ¬q.Trails) (hqlength : q.length < Lookup.pathLimit) : fs.read p = fs.read q := by
  have hcomponents : p.components = q.components := of_decide_eq_true h
  have hnul : 0 ∈ p ↔ 0 ∈ q := by
    rw [Path.nul_mem_iff, Path.nul_mem_iff, hcomponents]
  have habsolute : p.isAbsolute = q.isAbsolute := by
    rw [Bool.eq_iff_iff, Path.isAbsolute_iff, Path.isAbsolute_iff, hcomponents]
  have hspot : fs.spot .find p = fs.spot .find q := by
    rw [spot_of_not_trails fs hp hplength, spot_of_not_trails fs hq hqlength]
    unfold Lookup.start
    simp only [hnul, habsolute, hcomponents]
  unfold read find
  rw [hspot]

/-- If one spelling leads to a file, another one does so exactly if it does not ask
for a directory and is not too long. -/
theorem read_of_same_iff {fs : FileSystem} {p q : Path} {content : Bytes}
    (hp : fs.read p = .ok content) (h : Path.same p q = true) :
    fs.read q = .ok content ↔ ¬q.Trails ∧ q.length < Lookup.pathLimit := by
  obtain ⟨hptrails, hplength⟩ := not_trails_of_read hp
  constructor
  · exact not_trails_of_read
  · rintro ⟨hqtrails, hqlength⟩
    rw [← read_eq_of_same fs h hptrails hplength hqtrails hqlength, hp]

end Reading

end FileSystem

end GoTags
