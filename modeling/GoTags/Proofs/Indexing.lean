import GoTags.Proofs.Resolvers
import GoTags.Run.Indexing

/-!
# Indexing without state

What indexing remembers from one source to the next does not show: each source
has its own chunk, made from its tree and its lines alone.

**Input.** The sources of a run, in order.

**Results.**
* `build_simulated`: two sources of lines that answer alike make the same chunk.
* `build_scanning_eq_error_iff`: when a chunk cannot be made.
* `build_of_resolved`: the chunk of declarations whose lines can all be had.
* `build_of_alike`: declarations that get the same tags make the same chunk.
* `index_eq`: the index of a run is the chunks of its sources, in order.
-/

namespace GoTags

section Outcomes

variable {α β : Type}

theorem map_eq_ok_iff {r : Except Fault α} {g : α → β} {b : β} :
    r.map g = .ok b ↔ ∃ a, r = .ok a ∧ g a = b := by
  cases r <;> simp [Except.map]

theorem map_eq_error_iff {r : Except Fault α} {g : α → β} {f : Fault} :
    r.map g = .error f ↔ r = .error f := by
  cases r <;> simp [Except.map]

theorem toOption_eq_some_iff {ε : Type} {r : Except ε α} {a : α} :
    r.toOption = some a ↔ r = .ok a := by
  cases r <;> simp [Except.toOption]

theorem toOption_eq_none_iff {ε : Type} {r : Except ε α} :
    r.toOption = none ↔ ∃ e, r = .error e := by
  cases r <;> simp [Except.toOption]

end Outcomes

section Building

variable {σ τ : Type}

/-- Two sources of lines that answer alike make the same chunk. -/
theorem Chunk.build_simulated {source : LineSource σ} {target : LineSource τ}
    (Alike : σ → τ → Prop) {decls : List Declaration}
    (hresolve : ∀ d ∈ decls, ∀ s t, Alike s t →
      (source.resolve d.file d.line s).1 = (target.resolve d.file d.line t).1 ∧
        Alike (source.resolve d.file d.line s).2 (target.resolve d.file d.line t).2)
    (hnote : ∀ e s t, Alike s t → Alike (source.note e s) (target.note e t))
    (config : IndexConfig) (fileName : String) {s : σ} {t : τ} (hst : Alike s t) :
    (build source config fileName decls s).1 = (build target config fileName decls t).1 := by
  induction decls generalizing s t with
  | nil => rfl
  | cons d decls ih =>
      have hrest := @ih (fun d' hd' => hresolve d' (List.mem_cons_of_mem d hd'))
      obtain ⟨hanswer, halike⟩ := hresolve d List.mem_cons_self s t hst
      rw [build, build]
      generalize source.resolve d.file d.line s = a at hanswer halike
      generalize target.resolve d.file d.line t = b at hanswer halike
      obtain ⟨answer, s'⟩ := a
      obtain ⟨answer', t'⟩ := b
      dsimp only at hanswer halike
      subst hanswer
      cases answer with
      | ok text =>
          dsimp only
          rw [hrest halike]
      | error f =>
          cases config.lineErrors with
          | abort => rfl
          | skip =>
              dsimp only
              rw [hrest (hnote _ _ _ halike)]

end Building

namespace FileLines

section Chunks

/-- Keeping lines does not show in the chunk of a file. -/
theorem build_cached_eq (fs : FileSystem) (config : IndexConfig) (fileName : String)
    {path : Path} {decls : List Declaration} (hdecls : ∀ d ∈ decls, d.file = path)
    {c : Cache} (hc : Fresh fs path c) :
    (Chunk.build (cached fs) config fileName decls c).1 =
      (Chunk.build (scanning fs) config fileName decls ()).1 := by
  refine Chunk.build_simulated (fun c _ => Fresh fs path c) ?_ ?_ config fileName hc
  · intro d hd c _ hc
    rw [hdecls d hd]
    exact ⟨hc.answer d.line, hc.resolve d.line⟩
  · intro e c _ hc
    exact hc

theorem build_scanning_cons (fs : FileSystem) (config : IndexConfig) (fileName : String)
    (d : Declaration) (decls : List Declaration) :
    (Chunk.build (scanning fs) config fileName (d :: decls) ()).1 =
      match scan fs d.file d.line, config.lineErrors with
      | .ok text, _ =>
          (Chunk.build (scanning fs) config fileName decls ()).1.map
            (Chunk.cons config.layout (.ofDeclaration d text))
      | .error f, .abort => .error f
      | .error _, .skip => (Chunk.build (scanning fs) config fileName decls ()).1.map Chunk.drop := by
  rw [Chunk.build]
  simp only [scanning]
  cases scan fs d.file d.line with
  | ok text => rfl
  | error f =>
      cases config.lineErrors with
      | abort => rfl
      | skip => rfl

/-- A chunk cannot be made exactly if a line cannot be had and that ends the
building. -/
theorem build_scanning_eq_error_iff (fs : FileSystem) (config : IndexConfig) (fileName : String)
    (decls : List Declaration) :
    (∃ f, (Chunk.build (scanning fs) config fileName decls ()).1 = .error f) ↔
      config.lineErrors = .abort ∧ ∃ d ∈ decls, ∃ f, scan fs d.file d.line = .error f := by
  induction decls with
  | nil => simp [Chunk.build]
  | cons d decls ih =>
      rw [build_scanning_cons]
      cases hscan : scan fs d.file d.line with
      | ok text => simp [map_eq_error_iff, ih, hscan]
      | error f =>
          cases hconfig : config.lineErrors with
          | abort => simp [hscan]
          | skip =>
              rw [hconfig] at ih
              simp [map_eq_error_iff, ih]

theorem fileName_of_build {fs : FileSystem} {config : IndexConfig} {fileName : String}
    {decls : List Declaration} {chunk : Chunk}
    (h : (Chunk.build (scanning fs) config fileName decls ()).1 = .ok chunk) :
    chunk.fileName = fileName := by
  induction decls generalizing chunk with
  | nil =>
      rw [Chunk.build] at h
      cases h
      rfl
  | cons d decls ih =>
      rw [build_scanning_cons] at h
      split at h
      · obtain ⟨rest, hrest, rfl⟩ := map_eq_ok_iff.mp h
        have hname := ih hrest
        exact hname
      · cases h
      · obtain ⟨rest, hrest, rfl⟩ := map_eq_ok_iff.mp h
        have hname := ih hrest
        exact hname

/-- The chunk of declarations whose lines can all be had. -/
theorem build_of_resolved {fs : FileSystem} (config : IndexConfig) (fileName : String)
    {decls : List Declaration} {text : Declaration → String}
    (h : ∀ d ∈ decls, scan fs d.file d.line = .ok (text d)) :
    (Chunk.build (scanning fs) config fileName decls ()).1 =
      let records := decls.map fun d => Record.ofDeclaration d (text d)
      .ok ⟨fileName, records, records.flatMap (Record.bytes config.layout), 0⟩ := by
  induction decls with
  | nil => rfl
  | cons d decls ih =>
      rw [List.forall_mem_cons] at h
      rw [build_scanning_cons, h.1, ih h.2]
      rfl

/-- Two declarations that get the same tag: they say the same about their name, and
their lines are had alike. -/
structure TaggedAlike (fs fs' : FileSystem) (d d' : Declaration) : Prop where
  name : d'.name = d.name
  line : d'.line = d.line
  byteOffset : d'.byteOffset = d.byteOffset
  text : (scan fs' d'.file d'.line).toOption = (scan fs d.file d.line).toOption

/-- Lines are had alike where the same can be read. -/
theorem scan_alike {fs fs' : FileSystem} {p q : Path}
    (h : (fs'.read q).toOption = (fs.read p).toOption) (line : Nat) :
    (scan fs' q line).toOption = (scan fs p line).toOption := by
  cases line with
  | zero => rfl
  | succ above =>
      rw [scan, scan]
      cases hread : fs.read p with
      | error cause =>
          rw [hread] at h
          obtain ⟨cause', hcause'⟩ := toOption_eq_none_iff.mp h
          rw [hcause']
          rfl
      | ok content =>
          rw [hread] at h
          rw [toOption_eq_some_iff.mp h]
          dsimp only
          cases Lines.walk above 0 content with
          | onlyHas count => rfl
          | line bytes =>
              dsimp only
              rw [decode, decode]
              cases Utf8.defect? bytes with
              | none => rfl
              | some defect => rfl

theorem TaggedAlike.ofDeclaration {fs fs' : FileSystem} {d d' : Declaration}
    (h : TaggedAlike fs fs' d d') (text : String) :
    Record.ofDeclaration d' text = .ofDeclaration d text := by
  rw [Record.ofDeclaration, Record.ofDeclaration, h.name, h.line, h.byteOffset]

/-- Declarations that get the same tags make the same chunk, up to its name. -/
theorem build_of_alike {fs fs' : FileSystem} {config : IndexConfig} {fileName : String}
    (fileName' : String) {decls decls' : List Declaration}
    (halike : List.Forall₂ (TaggedAlike fs fs') decls decls') {chunk : Chunk}
    (h : (Chunk.build (scanning fs) config fileName decls ()).1 = .ok chunk) :
    (Chunk.build (scanning fs') config fileName' decls' ()).1 =
      .ok { chunk with fileName := fileName' } := by
  induction halike generalizing chunk with
  | nil =>
      rw [Chunk.build] at h
      cases h
      rfl
  | @cons d d' decls decls' hd _ ih =>
      have htext := hd.text
      rw [build_scanning_cons] at h ⊢
      cases hscan : scan fs d.file d.line with
      | ok text =>
          rw [hscan] at h htext
          obtain ⟨rest, hrest, rfl⟩ := map_eq_ok_iff.mp h
          rw [toOption_eq_some_iff.mp htext, ih hrest]
          dsimp only
          rw [hd.ofDeclaration]
          rfl
      | error fault =>
          rw [hscan] at h htext
          obtain ⟨fault', hfault'⟩ := toOption_eq_none_iff.mp htext
          rw [hfault']
          cases hconfig : config.lineErrors with
          | abort =>
              rw [hconfig] at h
              cases h
          | skip =>
              rw [hconfig] at h
              obtain ⟨rest, hrest, rfl⟩ := map_eq_ok_iff.mp h
              rw [ih hrest]
              rfl

end Chunks

end FileLines

section Runs

theorem mapM_eq_ok_iff {α β : Type} {f : α → Except Fault β} {xs : List α} {ys : List β} :
    xs.mapM f = .ok ys ↔ List.Forall₂ (fun x y => f x = .ok y) xs ys := by
  induction xs generalizing ys with
  | nil =>
      rw [List.mapM_nil, List.forall₂_nil_left_iff]
      exact ⟨fun h => (Except.ok.inj h).symm, fun h => h ▸ rfl⟩
  | cons x xs ih =>
      rw [List.mapM_cons, List.forall₂_cons_left_iff]
      cases hx : f x with
      | error fault => simp [bind, Except.bind]
      | ok y =>
          cases hxs : xs.mapM f with
          | error fault =>
              rw [hxs] at ih
              simp [bind, Except.bind, ← ih]
          | ok rest =>
              rw [hxs] at ih
              simp [bind, Except.bind, pure, Except.pure, ← ih, eq_comm]

theorem mapM_eq_error_iff {α β : Type} {f : α → Except Fault β} {xs : List α} :
    (∃ fault, xs.mapM f = .error fault) ↔ ∃ x ∈ xs, ∃ fault, f x = .error fault := by
  induction xs with
  | nil => simp [pure, Except.pure]
  | cons x xs ih =>
      rw [List.mapM_cons]
      cases hx : f x with
      | error fault => simp [bind, Except.bind, hx]
      | ok y =>
          cases hxs : xs.mapM f with
          | error fault =>
              rw [hxs] at ih
              simp [bind, Except.bind, hx, ← ih]
          | ok rest =>
              rw [hxs] at ih
              simp [bind, Except.bind, pure, Except.pure, hx, ← ih]

theorem SourceTree.file_of_mem_declarations {tree : SourceTree} {d : Declaration}
    (h : d ∈ tree.declarations) : d.file = Utf8.encode tree.path := by
  obtain ⟨⟨kind, i⟩, -, hd⟩ := List.mem_filterMap.mp h
  dsimp only at hd
  split at hd
  · cases hd
  · cases hd
    rfl

namespace FileSystem

/-- The chunk of a source, from its tree and its lines alone. -/
def chunkOf (fs : FileSystem) (reader : SourceReader) (config : IndexConfig) (p : Path) :
    Except Fault Chunk :=
  match reader.parse p with
  | .error fault => .error fault
  | .ok tree =>
      (Chunk.build (FileLines.scanning fs) config tree.path tree.declarations ()).1

variable (fs : FileSystem) (reader : SourceReader) (config : IndexConfig)

theorem chunkOf_eq_ok_iff {fs : FileSystem} {reader : SourceReader} {config : IndexConfig}
    {p : Path} {chunk : Chunk} :
    fs.chunkOf reader config p = .ok chunk ↔
      ∃ tree, reader.parse p = .ok tree ∧
        (Chunk.build (FileLines.scanning fs) config tree.path tree.declarations ()).1 =
          .ok chunk := by
  unfold chunkOf
  cases reader.parse p with
  | error fault => simp
  | ok tree => simp

/-- One source: its chunk, and nothing is held afterwards. -/
theorem indexOne_cached (p : Path) {c : FileLines.Cache} (hc : c.held = none) :
    (indexOne reader (FileLines.cached fs) config p c).1 = fs.chunkOf reader config p ∧
      ∀ chunk, fs.chunkOf reader config p = .ok chunk →
        (indexOne reader (FileLines.cached fs) config p c).2.held = none := by
  unfold indexOne chunkOf
  cases reader.parse p with
  | error fault => simp
  | ok tree =>
      have hfresh : FileLines.Fresh fs (Utf8.encode tree.path) c := by
        intro kept h
        rw [hc] at h
        cases h
      have hbuild := FileLines.build_cached_eq fs config tree.path
        (fun d hd => SourceTree.file_of_mem_declarations hd) hfresh
      dsimp only
      rw [← hbuild]
      cases Chunk.build (FileLines.cached fs) config tree.path tree.declarations c with
      | mk result c' =>
          cases result with
          | error fault => simp
          | ok chunk => exact ⟨rfl, fun _ _ => rfl⟩

theorem indexAll_cached (ps : List Path) {c : FileLines.Cache} (hc : c.held = none) :
    (indexAll reader (FileLines.cached fs) config ps c).1 =
      ps.mapM (fs.chunkOf reader config) := by
  induction ps generalizing c with
  | nil => rfl
  | cons p ps ih =>
      obtain ⟨hone, hheld⟩ := indexOne_cached fs reader config p hc
      rw [indexAll, List.mapM_cons, ← hone]
      rw [← hone] at hheld
      generalize indexOne reader (FileLines.cached fs) config p c = one at hheld
      obtain ⟨result, c'⟩ := one
      cases result with
      | error fault => rfl
      | ok chunk =>
          have hrest := ih (hheld chunk rfl)
          dsimp only
          rw [hrest]
          cases ps.mapM (fs.chunkOf reader config) with
          | error fault => rfl
          | ok chunks => rfl

/-- The index of a run is the chunks of its sources, in order. -/
theorem index_eq (ps : List Path) :
    (fs.index reader config ps).1 = (ps.mapM (fs.chunkOf reader config)).map Index.mk := by
  have hall := indexAll_cached fs reader config ps (c := {}) rfl
  unfold index indexFiles
  rw [← hall]
  cases indexAll reader (FileLines.cached fs) config ps {} with
  | mk result c =>
      cases result with
      | error fault => rfl
      | ok chunks => rfl

end FileSystem

end Runs

end GoTags
