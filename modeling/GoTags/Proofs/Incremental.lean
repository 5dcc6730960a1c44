import GoTags.Proofs.Tagging
import GoTags.Proofs.Writing

/-!
# Indexing in parts

Sources that are indexed in two parts, with the tags of the second part appended to
those of the first, come to the same file as sources that are indexed at once.

**Input.** Two lists of sources, and a destination where nothing stands.

**Results.**
* `index_append`: the index of two lists of sources, from the index of each.
* `Vacant.persist_append`: two writes to a destination where nothing stands, as one.
* `read_persist`: what a new file leaves to be read elsewhere.
* `index_persist`: the index of sources that a new file does not change.
* `index_incremental`: a run in two parts and a run at once leave the same files.
-/

namespace GoTags

section Appending

theorem mapM_append {α β : Type} (f : α → Except Fault β) (xs ys : List α) :
    (xs ++ ys).mapM f =
      match xs.mapM f, ys.mapM f with
      | .error fault, _ => .error fault
      | .ok _, .error fault => .error fault
      | .ok us, .ok vs => .ok (us ++ vs) := by
  rw [List.mapM_append]
  cases xs.mapM f with
  | error fault => rfl
  | ok us =>
      cases ys.mapM f with
      | error fault => rfl
      | ok vs => rfl

/-- The chunks of two indexes, one after the other. -/
def Index.append (i j : Index) : Index :=
  ⟨i.chunks ++ j.chunks⟩

theorem Index.buffer_append (i j : Index) : (i.append j).buffer = i.buffer ++ j.buffer :=
  List.flatMap_append

/-- The index of two lists of sources: the first fault, or the chunks of both. -/
theorem FileSystem.index_append (fs : FileSystem) (reader : SourceReader) (config : IndexConfig)
    (a b : List Path) :
    (fs.index reader config (a ++ b)).1 =
      match (fs.index reader config a).1, (fs.index reader config b).1 with
      | .error fault, _ => .error fault
      | .ok _, .error fault => .error fault
      | .ok i, .ok j => .ok (i.append j) := by
  rw [index_eq, index_eq, index_eq, mapM_append]
  cases a.mapM (fs.chunkOf reader config) with
  | error fault => rfl
  | ok us =>
      cases b.mapM (fs.chunkOf reader config) with
      | error fault => rfl
      | ok vs => rfl

end Appending

namespace FileSystem

section Vacancy

/-- Nothing stands at a path, not even a link. -/
def Vacant (fs : FileSystem) (p : Path) : Prop :=
  ∀ place entry, fs.spot .entry p ≠ .ok (.taken place entry)

variable {fs : FileSystem} {p : Path} {place : Place}

/-- A file that is opened where nothing stands can be created there. -/
theorem Vacant.createOnly_opens (h : fs.Vacant p) {old : Option Bytes}
    (hopens : WritePolicy.append.Opens fs p place old) :
    WritePolicy.createOnly.Opens fs p place none := by
  have hstands := (arrives_of_spot hopens.leads).forFile_at
  have hkeeps : fs.store.KeepsWays fs.store := fun _ _ hat _ => hat
  have hentry : Lookup.Reroutes .find .entry place old (fs.spot .entry p) :=
    spot_reroutes hkeeps hstands rfl hopens.leads
  rcases hentry with hentry | ⟨-, -, q, target, hentry⟩
  · cases old with
    | none => exact ⟨hopens.leads, fun _ => hentry⟩
    | some content => exact absurd hentry (h place _)
  · exact absurd hentry (h q _)

/-- A file that was made can be appended to. -/
theorem append_opens_put (hopens : WritePolicy.createOnly.Opens fs p place none)
    (content : Bytes) :
    WritePolicy.append.Opens (fs.put place (.file content)) p place (some content) := by
  have hstands := fs.at?_put_self (.file content) (arrives_of_spot hopens.leads).forFile_ne_root
  refine ⟨?_, by simp⟩
  exact spot_forFile (by simp) hstands (fun q hq => fs.at?_put_of_ne _ hq) rfl hopens.leads

/-- A file is made only where nothing stands, and holds what was written. -/
theorem vacant_and_read_of_created {data : Bytes}
    (h : (persist data p .createOnly fs).1.isOk = true) :
    fs.Vacant p ∧ (persist data p .createOnly fs).2.read p = .ok data := by
  rcases persist_cases data p .createOnly fs with
    ⟨fault, hfails⟩ | ⟨report, after, place, old, content, hmade, hwritten⟩
  · rw [hfails] at h
    cases h
  · refine ⟨?_, ?_⟩
    · intro place' entry htaken
      rw [hwritten.opened.unclaimed rfl] at htaken
      cases htaken
    · rw [hmade, ← hwritten.replaced (by simp)]
      exact hwritten.read

/-- Two writes to a destination where nothing stands, as one. -/
theorem Vacant.persist_append (h : fs.Vacant p) (x y : Bytes) :
    let first := persist x p .createOnly fs
    let second := persist y p .append first.2
    let once := persist (x ++ y) p .createOnly fs
    second.2 = once.2 ∧ first.1.isOk = once.1.isOk ∧ second.1.isOk = once.1.isOk := by
  by_cases hopens : ∃ place, WritePolicy.createOnly.Opens fs p place none
  · obtain ⟨place, hopens⟩ := hopens
    rw [persist_of_opens x hopens, persist_of_opens (x ++ y) hopens]
    dsimp only
    rw [persist_of_opens y (append_opens_put hopens _)]
    refine ⟨?_, rfl, rfl⟩
    simp only [put, Store.put_put, WritePolicy.result, Option.getD_some]
  · have hcreate : ∀ data, ∃ fault, persist data p .createOnly fs = (.error fault, fs) := by
      intro data
      refine persist_of_not_opens data ?_
      intro place old hcreates
      have hold := (WritePolicy.opens_iff.mp hcreates).2 rfl
      rw [hold] at hcreates
      exact hopens ⟨place, hcreates⟩
    have happend : ∃ fault, persist y p .append fs = (.error fault, fs) := by
      refine persist_of_not_opens y ?_
      intro place old happends
      exact hopens ⟨place, h.createOnly_opens happends⟩
    obtain ⟨fault, hfirst⟩ := hcreate x
    obtain ⟨fault', honce⟩ := hcreate (x ++ y)
    obtain ⟨fault'', hsecond⟩ := happend
    rw [hfirst, honce]
    dsimp only
    rw [hsecond]
    exact ⟨rfl, rfl, rfl⟩

end Vacancy

section Elsewhere

/-- A file made at the first path would be found at the second. -/
def Reveals (fs : FileSystem) (p q : Path) : Prop :=
  ∃ place, fs.spot .entry p = .ok (.free place) ∧ fs.spot .find q = .ok (.free place)

variable {fs : FileSystem} {p q : Path} {place : Place}

/-- What can be read at a path can be read after a file was made. -/
theorem read_put (hopens : WritePolicy.createOnly.Opens fs p place none) (data : Bytes)
    {content : Bytes} (h : fs.read q = .ok content) :
    (fs.put place (.file data)).read q = .ok content := by
  obtain ⟨place', hspot⟩ := (read_eq_ok_iff _ _ _).mp h
  have hfree := (arrives_of_spot hopens.leads).forFile_at
  have hstands : fs.store.at? place' = (some content).map .file :=
    Lookup.Arrives.forFile_at (arrives_of_spot hspot)
  refine read_elsewhere hfree (fun r hr => fs.at?_put_of_ne _ hr) rfl ?_ hspot
  rintro rfl
  rw [hfree] at hstands
  cases hstands

/-- What can be read after a file was made could be read before, unless it is the file. -/
theorem read_of_put (hopens : WritePolicy.createOnly.Opens fs p place none) {data content : Bytes}
    (hq : ¬fs.Reveals p q) (h : (fs.put place (.file data)).read q = .ok content) :
    fs.read q = .ok content := by
  obtain ⟨place', hspot⟩ := (read_eq_ok_iff _ _ _).mp h
  have harrives := arrives_of_spot hopens.leads
  have hback : ∀ r, r ≠ place → fs.store.at? r = (fs.put place (.file data)).store.at? r :=
    fun r hr => (fs.at?_put_of_ne _ hr).symm
  by_cases hplace : place' = place
  · -- then the path led to where the file was made
    subst hplace
    have hleads : (fs.put place' (.file data)).spot .find q = .ok (.forFile place' (some content)) :=
      hspot
    have hfree : fs.spot .find q = .ok (.forFile place' none) :=
      spot_forFile (by simp) harrives.forFile_at hback rfl hleads
    exact absurd ⟨place', hopens.unclaimed rfl, hfree⟩ hq
  · have hstands : (fs.put place (.file data)).store.at? place = (some data).map .file :=
      fs.at?_put_self (.file data) harrives.forFile_ne_root
    exact read_elsewhere hstands hback rfl hplace hspot

/-- What a new file leaves to be read elsewhere. -/
theorem read_persist (data : Bytes) (hq : ¬fs.Reveals p q) :
    ((persist data p .createOnly fs).2.read q).toOption = (fs.read q).toOption := by
  by_cases hopens : ∃ place old, WritePolicy.createOnly.Opens fs p place old
  · obtain ⟨place, old, hopens⟩ := hopens
    have hold := (WritePolicy.opens_iff.mp hopens).2 rfl
    subst hold
    rw [persist_of_opens data hopens]
    dsimp only
    ext content
    rw [toOption_eq_some_iff, toOption_eq_some_iff]
    exact ⟨read_of_put hopens hq, read_put hopens _⟩
  · push Not at hopens
    obtain ⟨fault, hpersist⟩ := persist_of_not_opens data hopens
    rw [hpersist]

end Elsewhere

section Sources

/-- A source that stays what it was after a file was made at a path: it is still read into
the same tree, and its lines are not taken from the file. -/
structure Unmoved (fs : FileSystem) (p : Path) (reader reader' : SourceReader) (q : Path) :
    Prop where
  reparsed : ∀ tree, reader.parse q = .ok tree → reader'.parse q = .ok tree
  hidden : ∀ tree, reader.parse q = .ok tree → ¬fs.Reveals p (Utf8.encode tree.path)

variable {fs : FileSystem} {p q : Path} {reader reader' : SourceReader} {config : IndexConfig}

theorem chunkOf_persist (data : Bytes) (hq : fs.Unmoved p reader reader' q) {chunk : Chunk}
    (h : fs.chunkOf reader config q = .ok chunk) :
    (persist data p .createOnly fs).2.chunkOf reader' config q = .ok chunk := by
  obtain ⟨tree, htree, hbuild⟩ := chunkOf_eq_ok_iff.mp h
  refine chunkOf_eq_ok_iff.mpr ⟨tree, hq.reparsed tree htree, ?_⟩
  have halike : List.Forall₂ (FileLines.TaggedAlike fs (persist data p .createOnly fs).2)
      tree.declarations tree.declarations := by
    rw [List.forall₂_same]
    intro d hd
    refine ⟨rfl, rfl, rfl, FileLines.scan_alike ?_ d.line⟩
    rw [SourceTree.file_of_mem_declarations hd]
    exact read_persist data (hq.hidden tree htree)
  have hname := FileLines.fileName_of_build hbuild
  rw [FileLines.build_of_alike tree.path halike hbuild, ← hname]

/-- The index of sources that a new file does not change. -/
theorem index_persist (data : Bytes) {ps : List Path}
    (hps : ∀ q ∈ ps, fs.Unmoved p reader reader' q) {i : Index}
    (h : (fs.index reader config ps).1 = .ok i) :
    ((persist data p .createOnly fs).2.index reader' config ps).1 = .ok i := by
  rw [index_eq] at h ⊢
  obtain ⟨chunks, hchunks, rfl⟩ := map_eq_ok_iff.mp h
  have hall : ps.mapM ((persist data p .createOnly fs).2.chunkOf reader' config) = .ok chunks := by
    rw [mapM_eq_ok_iff] at hchunks ⊢
    have hboth := (List.forall₂_and_left _ _).mpr ⟨hps, hchunks⟩
    exact hboth.imp fun q chunk hq => chunkOf_persist data hq.1 hq.2
  rw [hall]
  rfl

/-- Go sources stay what they were, unless their names as text would find the file. -/
theorem unmoved_go (data : Bytes) (hq : ¬fs.Reveals p (Utf8.encode (Path.display q))) :
    fs.Unmoved p (SourceReader.go fs) (SourceReader.go (persist data p .createOnly fs).2) q := by
  constructor
  · intro tree htree
    obtain ⟨content, hread, -, -⟩ := SourceReader.parse_go htree
    have hreveals : ¬fs.Reveals p q := by
      rintro ⟨place, -, hfree⟩
      obtain ⟨place', hspot⟩ := (read_eq_ok_iff _ _ _).mp hread
      rw [hfree] at hspot
      cases hspot
    have hreread := read_persist data hreveals
    rw [hread] at hreread
    rw [SourceReader.parse_go_of_read (toOption_eq_some_iff.mp hreread)]
    rwa [SourceReader.parse_go_of_read hread] at htree
  · intro tree htree
    obtain ⟨content, -, hpath, -⟩ := SourceReader.parse_go htree
    rwa [hpath]

end Sources

end FileSystem

section Runs

/-- **A run in two parts.** Two lists of sources are indexed to the fault of the first, or
else to that of the second, or else to the chunks of both. So where nothing stands at a
destination, or where it is made, making it with the tags of the first list and appending
those of the second leaves the same files as making it with the tags of both. The second
list is indexed alike after the first write, if its sources are what they were; Go sources
are, unless their names as text would find the destination. -/
theorem index_incremental (fs : FileSystem) (p : Path) (reader : SourceReader)
    (config : IndexConfig) (a b : List Path) :
    (fs.index reader config (a ++ b)).1 =
        (match (fs.index reader config a).1, (fs.index reader config b).1 with
        | .error fault, _ => .error fault
        | .ok _, .error fault => .error fault
        | .ok i, .ok j => .ok (i.append j)) ∧
      ∀ i j, (fs.index reader config a).1 = .ok i → (fs.index reader config b).1 = .ok j →
        let first := persist i.buffer p .createOnly fs
        let second := persist j.buffer p .append first.2
        let once := persist (i.append j).buffer p .createOnly fs
        (fs.Vacant p ∨ first.1.isOk = true →
          second.2 = once.2 ∧ first.1.isOk = once.1.isOk ∧ second.1.isOk = once.1.isOk ∧
            (once.1.isOk = true → second.2.read p = .ok (i.buffer ++ j.buffer))) ∧
          (∀ reader', (∀ q ∈ b, fs.Unmoved p reader reader' q) →
            (first.2.index reader' config b).1 = .ok j) ∧
          (reader = SourceReader.go fs →
            (∀ q ∈ b, ¬fs.Reveals p (Utf8.encode (Path.display q))) →
              (first.2.index (SourceReader.go first.2) config b).1 = .ok j) := by
  refine ⟨fs.index_append reader config a b, ?_⟩
  intro i j _ hj first second once
  have hagain : ∀ reader', (∀ q ∈ b, fs.Unmoved p reader reader' q) →
      (first.2.index reader' config b).1 = .ok j :=
    fun reader' hb => FileSystem.index_persist i.buffer hb hj
  refine ⟨?_, hagain, ?_⟩
  · intro hvacant
    have hvacant : fs.Vacant p := hvacant.elim id fun hok =>
      (FileSystem.vacant_and_read_of_created hok).1
    have honce : once = persist (i.buffer ++ j.buffer) p .createOnly fs := by
      rw [← Index.buffer_append]
    obtain ⟨hfiles, hfirst, hsecond⟩ := hvacant.persist_append i.buffer j.buffer
    rw [← honce] at hfiles hfirst hsecond
    refine ⟨hfiles, hfirst, hsecond, ?_⟩
    intro hok
    rw [hfiles, honce]
    rw [honce] at hok
    exact (FileSystem.vacant_and_read_of_created hok).2
  · rintro rfl hb
    exact hagain _ fun q hq => FileSystem.unmoved_go i.buffer (hb q hq)

/-- Two sources that declare their own names, the second indexed after the first. -/
theorem index_incremental_two :
    let fs : FileSystem := ⟨(Store.empty.put [[0x61]] (.file (Bytes.ascii "func a\n"))).put [[0x62]]
      (.file (Bytes.ascii "func b\n")), some []⟩
    let reader : SourceReader :=
      ⟨fun q => .ok ⟨Path.display q, [.function ⟨Path.display q, 1, 5⟩]⟩, fun _ => true⟩
    let i : Index := ⟨[⟨"a", [⟨"func a", "a", 1, 5⟩], Bytes.ascii "func aa1,5\n", 0⟩]⟩
    let j : Index := ⟨[⟨"b", [⟨"func b", "b", 1, 5⟩], Bytes.ascii "func bb1,5\n", 0⟩]⟩
    let first := persist i.buffer [0x54] .createOnly fs
    let second := persist j.buffer [0x54] .append first.2
    fs.Vacant [0x54] ∧ (fs.index reader {} [[0x61]]).1 = .ok i ∧
      (fs.index reader {} [[0x62]]).1 = .ok j ∧
      (fs.index reader {} [[0x61], [0x62]]).1 = .ok (i.append j) ∧
      (first.2.index reader {} [[0x62]]).1 = .ok j ∧
      second.2 = (persist (i.append j).buffer [0x54] .createOnly fs).2 ∧
      second.2.read [0x54] =
        .ok (Bytes.ascii "\x0c\na,11\nfunc aa1,5\n\x0c\nb,11\nfunc bb1,5\n") := by
  intro fs reader i j first second
  have hfree : fs.spot .entry [0x54] = .ok (.free [[0x54]]) := by decide
  have hvacant : fs.Vacant [0x54] := by
    intro place entry htaken
    rw [hfree] at htaken
    cases htaken
  have hi : (fs.index reader {} [[0x61]]).1 = .ok i := rfl
  have hj : (fs.index reader {} [[0x62]]).1 = .ok j := rfl
  obtain ⟨hindex, hruns⟩ := index_incremental fs [0x54] reader {} [[0x61]] [[0x62]]
  obtain ⟨hwrites, hagain, -⟩ := hruns i j hi hj
  obtain ⟨hsame, -, -, hread⟩ := hwrites (Or.inl hvacant)
  rw [hi, hj] at hindex
  have htaken : fs.spot .find (Utf8.encode (Path.display [0x62])) =
      .ok (.taken [[0x62]] (.file (Bytes.ascii "func b\n"))) := by
    decide
  have hunmoved : ∀ q ∈ [[0x62]], fs.Unmoved [0x54] reader reader q := by
    rw [List.forall_mem_singleton]
    refine ⟨fun _ htree => htree, ?_⟩
    rintro tree htree ⟨place, -, hfree⟩
    cases htree
    rw [htaken] at hfree
    cases hfree
  refine ⟨hvacant, hi, hj, hindex, hagain reader hunmoved, hsame, ?_⟩
  rw [hread (by decide)]
  decide

end Runs

end GoTags
