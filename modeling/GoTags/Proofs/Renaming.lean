import GoTags.Proofs.Building
import GoTags.Proofs.GoPositions
import GoTags.Proofs.Tagging

/-!
# Sources under other names

A source is opened by its path, but its lines are looked up by its path as text. The
two differ where the path is not text: then the lines may be those of another file, or of
none.

**Input.** Two paths to Go sources with the same content.

**Results.**
* `extension?_display`: the extension of a path as text is its extension as text.
* `supportsPath_display`: a path names a Go source exactly if it does so as text.
* `build_nameless_eq`: declarations that get the same tags make the same chunk, names
  apart.
* `build_renamed_iff`: tags agree, names apart, exactly if the declared lines are had alike.
* `nameless_index_eq_iff`: when two sources with the same content get the same tags.
-/

namespace GoTags

namespace Path

section Display

/-- A part of a path as text is the part itself, if one of the two is ASCII. -/
theorem encode_display_eq_iff {part : Bytes} {s : Bytes} (hs : ∀ b ∈ s, b.toNat < 0x80) :
    Utf8.encode (display part) = s ↔ part = s := by
  constructor
  · intro h
    exact Utf8.eq_of_encode_lossy_ascii h hs
  · rintro rfl
    exact Utf8.encode_lossy (Utf8.isText_of_ascii hs)

theorem encode_display_append {x : UInt8} (hx : x.toNat < 0x80) (left right : Bytes) :
    Utf8.encode (display (left ++ x :: right)) =
      Utf8.encode (display left) ++ x :: Utf8.encode (display right) :=
  Utf8.encode_lossy_append_ascii hx left right

/-- The parts of a path as text are its parts as text. -/
theorem splitOn_display {sep : UInt8} (hsep : sep.toNat < 0x80) (p : Path) :
    Bytes.splitOn sep (Utf8.encode p.display) =
      (Bytes.splitOn sep p).map fun part => Utf8.encode (display part) := by
  have hnot : ∀ {part : Bytes}, sep ∉ part → sep ∉ Utf8.encode (display part) :=
    fun hpart h => hpart (Utf8.mem_of_mem_encode_lossy hsep h)
  by_cases hmem : sep ∈ p
  · obtain ⟨part, rest, hp, hpart⟩ := List.eq_append_cons_of_mem hmem
    have hshorter : rest.length < p.length := by
      rw [hp, List.length_append, List.length_cons]
      omega
    have hrest := splitOn_display hsep rest
    rw [hp, encode_display_append hsep, Bytes.splitOn_append (hnot hpart),
      Bytes.splitOn_append hpart, List.map_cons, hrest]
  · rw [Bytes.splitOn_of_not_mem hmem, Bytes.splitOn_of_not_mem (hnot hmem)]
    rfl
termination_by p.length

/-- A component as text. -/
def Component.shown : Component → Component
  | .root => .root
  | .here => .here
  | .up => .up
  | .name n => .name (Utf8.encode (display n))

/-- The name that a component is. -/
def Component.name? : Component → Option Bytes
  | .name n => some n
  | _ => none

theorem component?_display (part : Bytes) :
    component? (Utf8.encode (display part)) = (component? part).map Component.shown := by
  have hnil : Utf8.encode (display part) = [] ↔ part = [] := encode_display_eq_iff (by simp)
  have hdot : Utf8.encode (display part) = [Bytes.dot] ↔ part = [Bytes.dot] :=
    encode_display_eq_iff (by simp [Bytes.dot])
  have hdots : Utf8.encode (display part) = [Bytes.dot, Bytes.dot] ↔
      part = [Bytes.dot, Bytes.dot] :=
    encode_display_eq_iff (by simp [Bytes.dot])
  simp only [component?, hnil, hdot, hdots]
  split
  · rfl
  · split <;> rfl

theorem fileName?_eq (p : Path) :
    fileName? p =
      ((Bytes.splitOn Bytes.slash p).filterMap component?).getLast?.bind Component.name? := by
  simp only [fileName?, components, List.getLast?_append]
  cases ((Bytes.splitOn Bytes.slash p).filterMap component?).getLast? with
  | some c => cases c <;> rfl
  | none => split_ifs <;> rfl

/-- The file name of a path as text is its file name as text. -/
theorem fileName?_display (p : Path) :
    fileName? (Utf8.encode p.display) =
      (fileName? p).map fun n => Utf8.encode (display n) := by
  have hshown : ((Bytes.splitOn Bytes.slash p).map fun part =>
      Utf8.encode (display part)).filterMap component? =
        ((Bytes.splitOn Bytes.slash p).filterMap component?).map Component.shown := by
    rw [List.filterMap_map, List.map_filterMap]
    exact List.filterMap_congr fun part _ => component?_display part
  rw [fileName?_eq, fileName?_eq, splitOn_display (by decide), hshown, List.getLast?_map]
  cases ((Bytes.splitOn Bytes.slash p).filterMap component?).getLast? with
  | none => rfl
  | some c => cases c <;> rfl

theorem cutLast_display {sep : UInt8} (hsep : sep.toNat < 0x80) (name : Bytes) :
    Bytes.cutLast sep (Utf8.encode (display name)) =
      (Bytes.cutLast sep name).map fun (before, after) =>
        (Utf8.encode (display before), Utf8.encode (display after)) := by
  have hnot : ∀ {part : Bytes}, sep ∉ part → sep ∉ Utf8.encode (display part) :=
    fun hpart h => hpart (Utf8.mem_of_mem_encode_lossy hsep h)
  cases hcut : Bytes.cutLast sep name with
  | none => exact Bytes.cutLast_eq_none_iff.mpr (hnot (Bytes.cutLast_eq_none_iff.mp hcut))
  | some parts =>
      obtain ⟨before, after⟩ := parts
      obtain ⟨rfl, hafter⟩ := Bytes.cutLast_eq_some_iff.mp hcut
      exact Bytes.cutLast_eq_some_iff.mpr
        ⟨encode_display_append hsep before after, hnot hafter⟩

/-- The extension of a path as text is its extension as text. -/
theorem extension?_display (p : Path) :
    extension? (Utf8.encode p.display) =
      (extension? p).map fun ext => Utf8.encode (display ext) := by
  rw [extension?, extension?, fileName?_display]
  cases fileName? p with
  | none => rfl
  | some name =>
      dsimp only [Option.map_some]
      rw [cutLast_display (by decide)]
      match Bytes.cutLast Bytes.dot name with
      | none => rfl
      | some ([], ext) => rfl
      | some (b :: stem, ext) =>
          have hstem : Utf8.encode (display (b :: stem)) ≠ [] := by
            rw [Ne, encode_display_eq_iff (by simp)]
            simp
          obtain ⟨c, rest, hcons⟩ := List.exists_cons_of_ne_nil hstem
          simp [hcons]

end Display

end Path

section Extensions

theorem Go.supportsPath_eq_true_iff {p : Path} :
    Go.supportsPath p = true ↔ Path.extension? p = some (Utf8.encode "go") := by
  rw [supportsPath, Option.any_eq_true]
  constructor
  · rintro ⟨ext, hext, hgo⟩
    obtain ⟨bytes, hbytes, hdecode⟩ := Option.bind_eq_some_iff.mp hext
    rw [hbytes, Utf8.decode?_eq_some_iff.mp hdecode, eq_of_beq hgo]
  · intro h
    refine ⟨"go", ?_, rfl⟩
    rw [Path.extensionText?, h, Option.bind_some, Utf8.decode?_eq_some_iff]

/-- A path names a Go source exactly if it does so as text. -/
theorem Go.supportsPath_display (p : Path) :
    Go.supportsPath (Utf8.encode p.display) = Go.supportsPath p := by
  have hgo : Utf8.encode "go" = [0x67, 0x6f] := rfl
  have hascii : ∀ b ∈ Utf8.encode "go", b.toNat < 0x80 := by simp [hgo]
  rw [Bool.eq_iff_iff, supportsPath_eq_true_iff, supportsPath_eq_true_iff,
    Path.extension?_display, Option.map_eq_some_iff]
  simp only [Path.encode_display_eq_iff hascii, exists_eq_right]

end Extensions

section Lists

/-- If two lists are made from one, some members being left out, and it can be told from
what is left which members it was made from, then it was made from each in the same way. -/
theorem eq_of_filterMap_eq {α β κ : Type} {key : α → κ} {key' : β → κ} {f g : α → Option β}
    {xs : List α} (hkeys : (xs.map key).Nodup) (hf : ∀ x y, f x = some y → key' y = key x)
    (hg : ∀ x y, g x = some y → key' y = key x) (h : xs.filterMap f = xs.filterMap g) :
    ∀ x ∈ xs, f x = g x := by
  induction xs with
  | nil => simp
  | cons x xs ih =>
      rw [List.map_cons, List.nodup_cons] at hkeys
      -- what is made from `x` is not made from a later member
      have hlater : ∀ {k : α → Option β}, (∀ x y, k x = some y → key' y = key x) →
          ∀ y, key' y = key x → y ∉ xs.filterMap k := by
        intro k hk y hy hmem
        obtain ⟨z, hz, hzy⟩ := List.mem_filterMap.mp hmem
        refine hkeys.1 ?_
        rw [← hy, hk z y hzy]
        exact List.mem_map_of_mem hz
      rw [List.forall_mem_cons]
      cases hfx : f x with
      | none =>
          cases hgx : g x with
          | none =>
              rw [List.filterMap_cons_none hfx, List.filterMap_cons_none hgx] at h
              exact ⟨rfl, ih hkeys.2 h⟩
          | some y =>
              rw [List.filterMap_cons_none hfx, List.filterMap_cons_some hgx] at h
              exact absurd (h ▸ List.mem_cons_self) (hlater hf y (hg x y hgx))
      | some y =>
          cases hgx : g x with
          | none =>
              rw [List.filterMap_cons_some hfx, List.filterMap_cons_none hgx] at h
              exact absurd (h ▸ List.mem_cons_self) (hlater hg y (hf x y hfx))
          | some z =>
              rw [List.filterMap_cons_some hfx, List.filterMap_cons_some hgx] at h
              obtain ⟨rfl, hrest⟩ := List.cons.inj h
              exact ⟨rfl, ih hkeys.2 hrest⟩

end Lists

section Chunks

/-- A chunk without the name of its source. -/
def Chunk.nameless (c : Chunk) : Chunk :=
  { c with fileName := "" }

/-- What an index says apart from the names of its sources; nothing if there is none. -/
def nameless (r : Except Fault Index) : Option (List Chunk) :=
  r.toOption.map fun i => i.chunks.map Chunk.nameless

theorem nameless_index_singleton (fs : FileSystem) (reader : SourceReader) (config : IndexConfig)
    (p : Path) :
    nameless (fs.index reader config [p]).1 =
      ((fs.chunkOf reader config p).toOption.map Chunk.nameless).map fun c => [c] := by
  rw [fs.index_eq, List.mapM_cons]
  cases fs.chunkOf reader config p with
  | error fault => rfl
  | ok chunk => rfl

namespace FileLines

variable {fs fs' : FileSystem} {config : IndexConfig} {fileName : String} {chunk : Chunk}
  {decls decls' : List Declaration}

theorem TaggedAlike.symm {d d' : Declaration} (h : TaggedAlike fs fs' d d') :
    TaggedAlike fs' fs d' d :=
  ⟨h.name.symm, h.line.symm, h.byteOffset.symm, h.text.symm⟩

/-- Declarations that get the same tags make the same chunk, names apart. -/
theorem build_nameless_eq (config : IndexConfig) (fileName fileName' : String)
    (h : List.Forall₂ (TaggedAlike fs fs') decls decls') :
    (Chunk.build (scanning fs) config fileName decls ()).1.toOption.map Chunk.nameless =
      (Chunk.build (scanning fs') config fileName' decls' ()).1.toOption.map Chunk.nameless := by
  have hflip : List.Forall₂ (TaggedAlike fs' fs) decls' decls :=
    h.flip.imp fun _ _ halike => halike.symm
  cases hbuild : (Chunk.build (scanning fs) config fileName decls ()).1 with
  | ok chunk =>
      rw [build_of_alike fileName' h hbuild]
      rfl
  | error fault =>
      cases hbuild' : (Chunk.build (scanning fs') config fileName' decls' ()).1 with
      | ok chunk =>
          rw [build_of_alike fileName hflip hbuild'] at hbuild
          cases hbuild
      | error fault' => rfl

theorem replies_scanning (fs : FileSystem) (decls : List Declaration) :
    (scanning fs).replies decls () = decls.map fun d => (d, scan fs d.file d.line) := by
  induction decls with
  | nil => rfl
  | cons d decls ih =>
      have hcall : (scanning fs).resolve d.file d.line () = (scan fs d.file d.line, ()) := rfl
      cases hscan : scan fs d.file d.line with
      | ok text =>
          rw [hscan] at hcall
          rw [LineSource.replies_cons_of_ok hcall, ih, List.map_cons, hscan]
      | error f =>
          rw [hscan] at hcall
          rw [LineSource.replies_cons_of_error hcall, ih, List.map_cons, hscan]

/-- The records of a chunk are those of the declarations whose lines are had. -/
theorem records_of_build (h : (Chunk.build (scanning fs) config fileName decls ()).1 = .ok chunk) :
    chunk.records = decls.filterMap fun d =>
      (scan fs d.file d.line).toOption.map (Record.ofDeclaration d) := by
  rw [Chunk.eq_ofReplies_of_build _ _ h, Chunk.records_ofReplies, replies_scanning,
    List.filterMap_map]
  refine List.filterMap_congr ?_
  intro d _
  rw [Function.comp_apply]
  cases scan fs d.file d.line with
  | ok text => rfl
  | error fault => rfl

end FileLines

end Chunks

section Sources

/-- A declaration in a file of another name. -/
def Declaration.moved (path : String) (d : Declaration) : Declaration :=
  { d with file := Utf8.encode path }

theorem SourceTree.declarations_moved (items : List TopLevel) (path path' : String) :
    (SourceTree.mk path' items).declarations =
      (SourceTree.mk path items).declarations.map (Declaration.moved path') := by
  rw [declarations, declarations, List.map_filterMap]
  refine List.filterMap_congr ?_
  rintro ⟨kind, i⟩ -
  dsimp only
  split
  · rfl
  · rfl

theorem SourceReader.parse_go_of_supported {fs : FileSystem} {p : Path} {content : Bytes}
    (hread : fs.read p = .ok content) (hgo : Go.supportsPath p = true) :
    (SourceReader.go fs).parse p =
      match Go.items content with
      | .ok found => .ok ⟨p.display, found⟩
      | .error cause => .error (.parse p.display cause) := by
  rw [parse_go_of_read hread]
  exact if_pos ((Go.supportsPath_display p).trans hgo)

variable {fs : FileSystem} {p q : Path} {content : Bytes} {items : List TopLevel}

/-- Tags agree, names apart, if the declared lines are had alike under both names. -/
theorem build_renamed (config : IndexConfig)
    (h : ∀ d ∈ (SourceTree.mk p.display items).declarations,
      (FileLines.scan fs (Utf8.encode q.display) d.line).toOption =
        (FileLines.scan fs (Utf8.encode p.display) d.line).toOption) :
    (Chunk.build (FileLines.scanning fs) config p.display
        (SourceTree.mk p.display items).declarations ()).1.toOption.map Chunk.nameless =
      (Chunk.build (FileLines.scanning fs) config q.display
        (SourceTree.mk q.display items).declarations ()).1.toOption.map Chunk.nameless := by
  refine FileLines.build_nameless_eq config p.display q.display ?_
  rw [SourceTree.declarations_moved items p.display q.display, List.forall₂_map_right_iff,
    List.forall₂_same]
  intro d hd
  refine ⟨rfl, rfl, rfl, ?_⟩
  rw [SourceTree.file_of_mem_declarations hd]
  exact h d hd

/-- The declared lines are had alike under the texts of two paths, or under each of them one
is not had and the indexing ends with it. -/
def FileLines.HadAlike (fs : FileSystem) (config : IndexConfig) (p q : Path)
    (decls : List Declaration) : Prop :=
  (config.lineErrors = .abort ∧
      (∃ d ∈ decls, ∃ fault, scan fs (Utf8.encode p.display) d.line = .error fault) ∧
      ∃ d ∈ decls, ∃ fault, scan fs (Utf8.encode q.display) d.line = .error fault) ∨
    ∀ d ∈ decls, (scan fs (Utf8.encode q.display) d.line).toOption =
      (scan fs (Utf8.encode p.display) d.line).toOption

/-- The indexing of a source under the text of `q` ends with a line that is not had there. -/
theorem build_moved_eq_error_iff (fs : FileSystem) (config : IndexConfig)
    (items : List TopLevel) (p q : Path) :
    (∃ fault, (Chunk.build (FileLines.scanning fs) config q.display
        (SourceTree.mk q.display items).declarations ()).1 = .error fault) ↔
      config.lineErrors = .abort ∧ ∃ d ∈ (SourceTree.mk p.display items).declarations,
        ∃ fault, FileLines.scan fs (Utf8.encode q.display) d.line = .error fault := by
  rw [FileLines.build_scanning_eq_error_iff, SourceTree.declarations_moved items p.display]
  simp only [List.mem_map, exists_exists_and_eq_and, Declaration.moved]

/-- The records of a source under the text of `q` are those of the lines that are had
there. -/
theorem records_of_build_moved {config : IndexConfig} {chunk : Chunk} (p : Path)
    (h : (Chunk.build (FileLines.scanning fs) config q.display
      (SourceTree.mk q.display items).declarations ()).1 = .ok chunk) :
    chunk.records = (SourceTree.mk p.display items).declarations.filterMap fun d =>
      (FileLines.scan fs (Utf8.encode q.display) d.line).toOption.map
        (Record.ofDeclaration d) := by
  rw [FileLines.records_of_build h, SourceTree.declarations_moved items p.display,
    List.filterMap_map]
  rfl

/-- Tags agree, names apart, exactly if the declared lines are had alike. -/
theorem build_renamed_iff (fs : FileSystem) (p q : Path) (config : IndexConfig)
    (hitems : Go.items content = .ok items) :
    (Chunk.build (FileLines.scanning fs) config p.display
          (SourceTree.mk p.display items).declarations ()).1.toOption.map Chunk.nameless =
        (Chunk.build (FileLines.scanning fs) config q.display
          (SourceTree.mk q.display items).declarations ()).1.toOption.map Chunk.nameless ↔
      FileLines.HadAlike fs config p q (SourceTree.mk p.display items).declarations := by
  have hlost := build_moved_eq_error_iff fs config items p p
  have hlost' := build_moved_eq_error_iff fs config items p q
  constructor
  · intro h
    cases hbuild : (Chunk.build (FileLines.scanning fs) config p.display
        (SourceTree.mk p.display items).declarations ()).1 with
    | error fault =>
        rw [hbuild] at h
        have hnone := Option.map_eq_none_iff.mp h.symm
        obtain ⟨habort, hp⟩ := hlost.mp ⟨fault, hbuild⟩
        exact Or.inl ⟨habort, hp, (hlost'.mp (toOption_eq_none_iff.mp hnone)).2⟩
    | ok chunk =>
        rw [hbuild] at h
        obtain ⟨chunk', hbuild', hchunk⟩ := Option.map_eq_some_iff.mp h.symm
        have hrecords := congrArg Chunk.records hchunk
        change chunk'.records = chunk.records at hrecords
        rw [records_of_build_moved p (toOption_eq_some_iff.mp hbuild'),
          records_of_build_moved p hbuild] at hrecords
        -- a record tells by its offset which declaration it is of
        have hoffset : ∀ (x : Path) d r,
            (FileLines.scan fs x d.line).toOption.map (Record.ofDeclaration d) = some r →
              r.byteOffset = d.byteOffset := by
          intro x d r hr
          obtain ⟨text, -, rfl⟩ := Option.map_eq_some_iff.mp hr
          rfl
        have htexts := eq_of_filterMap_eq (Go.nodup_byteOffset hitems) (hoffset _) (hoffset _)
          hrecords
        refine Or.inr fun d hd => Option.map_injective ?_ (htexts d hd)
        exact fun text text' hrecord => congrArg Record.lineText hrecord
  · rintro (⟨habort, hp, hq⟩ | halike)
    · obtain ⟨fault, hfault⟩ := hlost.mpr ⟨habort, hp⟩
      obtain ⟨fault', hfault'⟩ := hlost'.mpr ⟨habort, hq⟩
      rw [hfault, hfault']
      rfl
    · exact build_renamed config halike

/-- If one of the paths is text, its lines are had, and so all of them are to be had under
the other. -/
theorem FileLines.hadAlike_iff_of_isText (hitems : Go.items content = .ok items)
    (hread : fs.read q = .ok content) (htext : Utf8.IsText q) (config : IndexConfig) :
    HadAlike fs config p q (SourceTree.mk p.display items).declarations ↔
      ∀ d ∈ (SourceTree.mk p.display items).declarations,
        ∃ text, scan fs (Utf8.encode p.display) d.line = .ok text ∧
          scan fs q d.line = .ok text := by
  have hq : Utf8.encode q.display = q := by rw [Path.display, Utf8.encode_lossy htext]
  rw [HadAlike, hq]
  constructor
  · intro h d hd
    obtain ⟨text, hscan, -⟩ := scan_of_declared hread hitems hd
    rcases h with ⟨-, -, e, he, fault, hfault⟩ | halike
    · obtain ⟨other, hother, -⟩ := scan_of_declared hread hitems he
      rw [hother] at hfault
      cases hfault
    · have hsame := halike d hd
      rw [hscan] at hsame
      exact ⟨text, toOption_eq_some_iff.mp hsame.symm, hscan⟩
  · intro h
    refine Or.inr fun d hd => ?_
    obtain ⟨text, hscan, hscan'⟩ := h d hd
    rw [hscan, hscan']

/-- **Tags and the names of sources.** Two Go sources with the same content get the same
tags, names apart, if their paths are text. If one of the paths is, they do exactly if
every declared line is had alike under the text of the other path. In general they do
exactly if the declared lines are had alike under the texts of both paths, or if a line that
is not had ends the indexing under both. -/
theorem nameless_index_eq_iff {fs : FileSystem} {p q : Path} {content : Bytes}
    (hp : Go.supportsPath p = true) (hq : Go.supportsPath q = true)
    (hread : fs.read p = .ok content) (hread' : fs.read q = .ok content) (config : IndexConfig) :
    let tags : Path → Option (List Chunk) := fun x =>
      nameless (fs.index (SourceReader.go fs) config [x]).1
    (Utf8.IsText p → Utf8.IsText q → tags p = tags q) ∧
      (Utf8.IsText q → (tags p = tags q ↔
        ∀ tree, (SourceReader.go fs).parse p = .ok tree → ∀ d ∈ tree.declarations,
          ∃ text, FileLines.scan fs (Utf8.encode p.display) d.line = .ok text ∧
            FileLines.scan fs q d.line = .ok text)) ∧
      (tags p = tags q ↔ ∀ tree, (SourceReader.go fs).parse p = .ok tree →
        FileLines.HadAlike fs config p q tree.declarations) := by
  have hparse := SourceReader.parse_go_of_supported hread hp
  have hparse' := SourceReader.parse_go_of_supported hread' hq
  intro tags
  have htags : tags p = tags q ↔
      (fs.chunkOf (SourceReader.go fs) config p).toOption.map Chunk.nameless =
        (fs.chunkOf (SourceReader.go fs) config q).toOption.map Chunk.nameless := by
    simp only [tags, nameless_index_singleton]
    exact (Option.map_injective (fun _ _ h => (List.cons.inj h).1)).eq_iff
  rw [htags, FileSystem.chunkOf, FileSystem.chunkOf, hparse, hparse']
  cases hitems : Go.items content with
  | error cause => simp [Except.toOption]
  | ok items =>
      simp only [Except.ok.injEq, forall_eq']
      have hiff := build_renamed_iff fs p q config hitems
      refine ⟨?_, ?_, hiff⟩
      · intro htext htext'
        refine build_renamed config ?_
        intro d _
        refine FileLines.scan_alike ?_ d.line
        rw [Path.display, Path.display, Utf8.encode_lossy htext, Utf8.encode_lossy htext', hread,
          hread']
      · intro htext
        exact hiff.trans (FileLines.hadAlike_iff_of_isText hitems hread' htext config)

theorem FileLines.scan_ne_ok {fs : FileSystem} {path : Path} {cause : FileFault}
    (h : fs.read path = .error cause) (line : Nat) (text : String) :
    scan fs path line ≠ .ok text := by
  cases line with
  | zero => simp [scan]
  | succ above => simp [scan, h]

/-- A path that is not text, where the text of the path leads nowhere: the source gets the
tags of its copy only if it declares nothing. -/
theorem nameless_index_eq_iff_hidden :
    let content := Bytes.ascii "package p\n\nfunc A() {}\n"
    let p : Path := 0xff :: Bytes.ascii ".go"
    let q := Bytes.ascii "a.go"
    let fs : FileSystem :=
      ⟨(Store.empty.put [p] (.file content)).put [q] (.file content), some []⟩
    Go.supportsPath p = true ∧ Go.supportsPath q = true ∧ fs.read p = .ok content ∧
      fs.read q = .ok content ∧
      (nameless (fs.index (SourceReader.go fs) {} [p]).1 =
          nameless (fs.index (SourceReader.go fs) {} [q]).1 ↔
        ∀ tree, (SourceReader.go fs).parse p = .ok tree → tree.declarations = []) := by
  intro content p q fs
  have hp : Go.supportsPath p = true := by decide
  have hq : Go.supportsPath q = true := by decide
  have hread : fs.read p = .ok content := by decide
  have hread' : fs.read q = .ok content := by decide
  have htext : Utf8.IsText q := ⟨"a.go", by decide⟩
  have hmissing : fs.read (Utf8.encode p.display) = .error .notFound := by decide
  obtain ⟨-, hiff, -⟩ := nameless_index_eq_iff hp hq hread hread' {}
  refine ⟨hp, hq, hread, hread', (hiff htext).trans ?_⟩
  refine forall₂_congr fun tree _ => ?_
  rw [List.eq_nil_iff_forall_not_mem]
  refine forall₂_congr fun d _ => ?_
  simp [FileLines.scan_ne_ok hmissing]

end Sources

end GoTags
