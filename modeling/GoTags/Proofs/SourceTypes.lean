import GoTags.Proofs.Expansion
import GoTags.Proofs.Renaming
import GoTags.Proofs.Runs

/-!
# What is taken for a source

A directory is searched for sources by the extensions of paths as they are. A source is
refused for its type by the extension of its path as text, where bytes that are no text have
been replaced.

**Input.** A path, of any bytes.

**Results.**
* `refusedForType_iff`: a source is refused for its type exactly if its path, as it is, does
  not name one.
* `parse_of_chunkOf_eq_error`: a run fails on parsing only where a source was refused.
* `source_types_agree`: a directory gives the files that are not refused, and a run fails on
  the type of a file only if the file was given as such.
-/

namespace GoTags

section Refusals

/-- A source was refused for its type. -/
def RefusedForType (r : Except Fault SourceTree) : Prop :=
  ∃ name, r = .error (.parse name .unsupportedType)

theorem Go.items_ne_unsupportedType (content : Bytes) :
    Go.items content ≠ .error .unsupportedType := by
  rw [Go.items]
  split
  · simp
  · dsimp only
    split <;> simp

/-- A source is refused for its type exactly if its path does not name a source. -/
theorem Go.refusedForType_iff {p : Path} {content : Bytes} :
    RefusedForType (Go.parseSource p.display content) ↔ Go.supportsPath p = false := by
  rw [Go.parseSource, Go.supportsPath_display]
  cases Go.supportsPath p with
  | false => exact ⟨fun _ => rfl, fun _ => ⟨_, rfl⟩⟩
  | true =>
      rw [if_pos rfl]
      refine ⟨?_, fun h => by cases h⟩
      rintro ⟨name, h⟩
      cases hitems : Go.items content with
      | ok found =>
          rw [hitems] at h
          cases h
      | error cause =>
          rw [hitems] at h
          cases h
          exact absurd hitems (Go.items_ne_unsupportedType content)

theorem Go.eq_of_parseSource_eq_error {path name : String} {content : Bytes} {cause : ParseFault}
    (h : Go.parseSource path content = .error (.parse name cause)) : name = path := by
  rw [Go.parseSource] at h
  split at h
  · split at h
    · cases h
    · cases h
      rfl
  · cases h
    rfl

/-- A file that cannot be read is refused for that, whatever its type. -/
theorem SourceReader.parseSource_of_parse_eq_unsupported {fs : FileSystem} {p : Path}
    {name : String}
    (h : (SourceReader.go fs).parse p = .error (.parse name .unsupportedType)) :
    ∃ content, Go.parseSource p.display content = .error (.parse name .unsupportedType) := by
  cases hread : fs.read p with
  | ok content => exact ⟨content, by rwa [parse_go_of_read hread] at h⟩
  | error cause =>
      simp only [SourceReader.go, hread] at h
      cases h

end Refusals

section Runs

variable {fs : FileSystem} {walker : Walker}

theorem FileLines.isParse_of_scan {path : Path} {line : Nat} {f : Fault}
    (h : scan fs path line = .error f) : f.isParse = false := by
  unfold scan at h
  split at h
  · cases h
    rfl
  · split at h
    · cases h
      rfl
    · split at h
      · cases h
        rfl
      · rw [decode] at h
        split at h
        · cases h
        · cases h
          rfl

/-- What ends the making of a chunk is a line that cannot be had. -/
theorem FileLines.isParse_of_build {config : IndexConfig} {fileName : String}
    {decls : List Declaration} {f : Fault}
    (h : (Chunk.build (scanning fs) config fileName decls ()).1 = .error f) :
    f.isParse = false := by
  induction decls with
  | nil =>
      rw [Chunk.build] at h
      cases h
  | cons d decls ih =>
      rw [build_scanning_cons] at h
      split at h
      · exact ih (map_eq_error_iff.mp h)
      · rename_i hscan _
        cases h
        exact isParse_of_scan hscan
      · exact ih (map_eq_error_iff.mp h)

/-- A source fails to be indexed with a fault of parsing only if that is how it was refused. -/
theorem FileSystem.parse_of_chunkOf_eq_error {reader : SourceReader} {config : IndexConfig}
    {p : Path} {f : Fault} (h : fs.chunkOf reader config p = .error f)
    (hparse : f.isParse = true) : reader.parse p = .error f := by
  rw [chunkOf] at h
  split at h
  · rename_i hrefused
    cases h
    exact hrefused
  · rw [FileLines.isParse_of_build h] at hparse
    cases hparse

/-- The fault of a list is that of one of its members. -/
theorem exists_of_mapM_eq_error {α β : Type} {f : α → Except Fault β} {xs : List α}
    {fault : Fault} (h : xs.mapM f = .error fault) : ∃ x ∈ xs, f x = .error fault := by
  induction xs with
  | nil => cases h
  | cons x xs ih =>
      rw [List.mapM_cons] at h
      cases hx : f x with
      | error first =>
          rw [hx] at h
          cases h
          exact ⟨x, List.mem_cons_self, hx⟩
      | ok y =>
          rw [hx] at h
          cases hxs : xs.mapM f with
          | ok ys =>
              rw [hxs] at h
              cases h
          | error later =>
              rw [hxs] at h ih
              cases h
              obtain ⟨z, hz, hfault⟩ := ih rfl
              exact ⟨z, List.mem_cons_of_mem _ hz, hfault⟩

theorem writeFailure_ne_indexing (destination : Path) (cause fault : Fault) :
    writeFailure destination cause ≠ .indexing fault := by
  cases cause <;> simp [writeFailure]

/-- A run that fails on a source fails with the fault of that source. -/
theorem exists_of_makeTags_eq_indexing {paths : List Path} {config : Config} {fault : Fault}
    (h : (makeTags paths config fs walker).result = .error (.indexing fault)) :
    ∃ q ∈ runFiles paths fs walker, fs.chunkOf (SourceReader.go fs) config.index q = .error fault := by
  have hrun := congrArg Prod.fst (makeTags_eq paths config fs walker)
  dsimp only at hrun
  rw [h] at hrun
  split at hrun
  · cases hrun
  · split at hrun
    · rename_i cause hchunks
      cases hrun
      exact exists_of_mapM_eq_error hchunks
    · split at hrun
      · -- a destination that cannot be opened is a failure of another kind
        exact absurd (Except.error.inj hrun).symm (writeFailure_ne_indexing _ _ _)
      · cases hrun

/-- What an input gives is the input itself, unless it is a directory, or named like a
source. -/
theorem Expand.given_or_supported {reader : SourceReader} {p q : Path}
    (h : q ∈ input fs reader walker p) :
    (fs.isDir p = false ∧ q = p) ∨ reader.supportsPath q = true := by
  rw [input] at h
  split at h
  · exact Or.inr (mem_sources_iff.mp h).2
  · rename_i hdir
    exact Or.inl ⟨Bool.eq_false_iff.mpr hdir, List.mem_singleton.mp h⟩

/-- Of the files that a walker comes to, those are kept that are named like sources. -/
theorem Expand.mem_input_iff_of_visited {reader : SourceReader} {p : Path} {v : Visit}
    (hdir : fs.isDir p = true) (hv : v ∈ visited (walker fs p)) (hfile : v.isFile = true) :
    v.path ∈ input fs reader walker p ↔ reader.supportsPath v.path = true := by
  obtain ⟨path, isFile⟩ := v
  obtain rfl : isFile = true := hfile
  rw [input, if_pos hdir, mem_sources_iff]
  exact and_iff_right hv

end Runs

section Agreement

/-- **What is a source.** A path names a source exactly if a file that is read there is not
refused for its type. So, however directories are walked, a run fails on the type of a file
only if the file itself was given, and of the files that a walker comes to in a directory,
those are kept that are not refused. -/
theorem source_types_agree (fs : FileSystem) :
    let reader := SourceReader.go fs
    (∀ p content, reader.supportsPath p = true ↔
        ¬RefusedForType (Go.parseSource p.display content)) ∧
      (∀ p content, fs.read p = .ok content →
        (reader.supportsPath p = true ↔ ¬RefusedForType (reader.parse p))) ∧
      (∀ paths config walker name,
        (makeTags paths config fs walker).result =
            .error (.indexing (.parse name .unsupportedType)) →
          ∃ p ∈ paths, p.display = name ∧ fs.isDir p = false ∧ reader.supportsPath p = false) ∧
      (∀ walker p v, fs.isDir p = true → v ∈ Expand.visited (walker fs p) → v.isFile = true →
        (v.path ∈ Expand.inputs fs reader [p] walker ↔
          ∀ content, ¬RefusedForType (Go.parseSource v.path.display content))) ∧
      ∀ walker skips p dir names, fs.dirAt? p = some dir → Walker.Obeys fs skips walker p dir →
        WayDown fs skips dir p names →
          (p.below names ∈ Expand.inputs fs reader [p] walker ↔
            ∀ content, ¬RefusedForType (Go.parseSource (p.below names).display content)) := by
  intro reader
  have hagree : ∀ p content, reader.supportsPath p = true ↔
      ¬RefusedForType (Go.parseSource p.display content) := by
    intro p content
    rw [Go.refusedForType_iff, Bool.not_eq_false]
    rfl
  have hagree' : ∀ p, reader.supportsPath p = true ↔
      ∀ content, ¬RefusedForType (Go.parseSource p.display content) :=
    fun p => ⟨fun h content => (hagree p content).mp h, fun h => (hagree p []).mpr (h [])⟩
  simp only [Expand.inputs_singleton]
  refine ⟨hagree, ?_, ?_, ?_, ?_⟩
  · intro p content hread
    rw [SourceReader.parse_go_of_read hread]
    exact hagree p content
  · intro paths config walker name h
    obtain ⟨q, hq, hfault⟩ := exists_of_makeTags_eq_indexing h
    have hrefused := FileSystem.parse_of_chunkOf_eq_error hfault rfl
    obtain ⟨content, hparse⟩ := SourceReader.parseSource_of_parse_eq_unsupported hrefused
    have hname := Go.eq_of_parseSource_eq_error hparse
    have hunsupported := Go.refusedForType_iff.mp ⟨name, hparse⟩
    obtain ⟨p, hp, hqp⟩ := List.mem_flatMap.mp hq
    rcases Expand.given_or_supported hqp with ⟨hdir, rfl⟩ | hsupports
    · exact ⟨q, hp, hname.symm, hdir, hunsupported⟩
    · exact absurd (hsupports.symm.trans hunsupported) (by simp)
  · intro walker p v hdir hv hfile
    rw [Expand.mem_input_iff_of_visited hdir hv hfile]
    exact hagree' v.path
  · intro walker skips p dir names hdir hobeys hway
    rw [Expand.input_of_dirAt? hdir, Expand.mem_sources_iff_way hobeys, ← hagree']
    constructor
    · rintro ⟨-, -, -, hsupports⟩
      exact hsupports
    · exact fun hsupports => ⟨names, hway, rfl, hsupports⟩

/-- Bytes that are no text before the dot do not matter; in the extension they do. -/
theorem source_types_agree_no_text :
    let p : Path := 0xff :: Bytes.ascii ".go"
    let q : Path := Bytes.ascii "a.g" ++ 0xff :: Bytes.ascii "o"
    let fs : FileSystem :=
      ⟨(Store.empty.put [p] (.file [0x78])).put [q] (.file [0x79]), some []⟩
    fs.read p = .ok [0x78] ∧ fs.read q = .ok [0x79] ∧
      ¬RefusedForType ((SourceReader.go fs).parse p) ∧
      RefusedForType ((SourceReader.go fs).parse q) := by
  intro p q fs
  have hread : fs.read p = .ok [0x78] := by decide
  have hread' : fs.read q = .ok [0x79] := by decide
  obtain ⟨-, hagree, -⟩ := source_types_agree fs
  refine ⟨hread, hread', (hagree p _ hread).mp (by decide), ?_⟩
  by_contra h
  exact absurd ((hagree q _ hread').mpr h) (by decide)

end Agreement

end GoTags
