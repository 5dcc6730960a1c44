import GoTags.Files.Persist
import GoTags.Proofs.Spelling

/-!
# The names of entries

A name in a directory is not empty, holds no slash and is neither `.` nor `..`. Places can
be spelt out with other names too, but no path leads to such a place.

**Input.** A file system and what is done to it.

**Results.**
* `isEntryName_of_mem_steps`: the names that a path steps to are names of entries.
* `WellNamed.spot`: a path leads to a place that is spelt out with names of entries.
* `WellNamed.write`, `WellNamed.makeDirs`, `WellNamed.makeLink`, `WellNamed.remove`: so
  entries keep such names, whatever is changed.
* `Made.wellNamed`: in every file system that can be made, entries have such names.
-/

namespace GoTags

section Names

/-- A name that an entry of a directory may have. -/
def Path.IsEntryName (name : Bytes) : Prop :=
  name ≠ [] ∧ Bytes.slash ∉ name ∧ name ≠ [Bytes.dot] ∧ name ≠ [Bytes.dot, Bytes.dot]

instance : DecidablePred Path.IsEntryName := fun name =>
  inferInstanceAs (Decidable (name ≠ [] ∧ Bytes.slash ∉ name ∧ name ≠ [Bytes.dot] ∧
    name ≠ [Bytes.dot, Bytes.dot]))

/-- A place that is spelt out with names of entries. -/
def Place.WellNamed (place : Place) : Prop :=
  ∀ name ∈ place, Path.IsEntryName name

instance : DecidablePred Place.WellNamed := fun place =>
  inferInstanceAs (Decidable (∀ name ∈ place, Path.IsEntryName name))

theorem Place.wellNamed_concat {place : Place} {name : Bytes} :
    Place.WellNamed (place ++ [name]) ↔ Place.WellNamed place ∧ Path.IsEntryName name := by
  rw [Place.WellNamed, List.forall_mem_append, List.forall_mem_singleton]
  rfl

theorem Place.WellNamed.dropLast {place : Place} (h : Place.WellNamed place) :
    Place.WellNamed place.dropLast :=
  fun name hname => h name (List.mem_of_mem_dropLast hname)

theorem Step.ofPart?_eq_name_iff {part name : Bytes} :
    Step.ofPart? part = some (.name name) ↔
      part = name ∧ name ≠ [] ∧ name ≠ [Bytes.dot] ∧ name ≠ [Bytes.dot, Bytes.dot] := by
  rw [ofPart?]
  split_ifs <;> grind

/-- The names that a path steps to are names of entries. -/
theorem Path.isEntryName_of_mem_steps {p : Path} {name : Bytes} (h : Step.name name ∈ p.steps) :
    Path.IsEntryName name := by
  have hpart : Step.name name ∈ (Bytes.splitOn Bytes.slash p).filterMap Step.ofPart? := by
    rcases List.mem_append.mp h with h | h
    · exact h
    · split at h <;> simp at h
  obtain ⟨part, hmem, hname⟩ := List.mem_filterMap.mp hpart
  obtain ⟨rfl, hnil, hdot, hdots⟩ := Step.ofPart?_eq_name_iff.mp hname
  exact ⟨hnil, Bytes.not_mem_of_mem_splitOn hmem, hdot, hdots⟩

end Names

namespace Store

section Entries

/-- Entries in order are found by their places. -/
theorem find?_of_mem {entries : List (Place × Entry)}
    (h : entries.Pairwise fun a b => a.1 < b.1) {place : Place} {entry : Entry}
    (hmem : (place, entry) ∈ entries) :
    entries.find? (fun x => x.1 = place) = some (place, entry) := by
  induction entries with
  | nil => cases hmem
  | cons x rest ih =>
      obtain ⟨hfirst, hrest⟩ := List.pairwise_cons.mp h
      rcases List.mem_cons.mp hmem with rfl | hmem
      · simp
      · have hne : x.1 ≠ place := by
          intro heq
          have hlt := hfirst _ hmem
          rw [heq] at hlt
          exact List.lt_irrefl _ hlt
        rw [List.find?_cons_of_neg (by simpa using hne)]
        exact ih hrest hmem

theorem at?_eq_some_iff {s : Store} {place : Place} (h : place ≠ []) {entry : Entry} :
    s.at? place = some entry ↔ (place, entry) ∈ s.entries := by
  rw [at?, if_neg h, Option.map_eq_some_iff]
  constructor
  · rintro ⟨⟨q, e⟩, hfind, rfl⟩
    have hq : q = place := by simpa using List.find?_some hfind
    exact hq ▸ List.mem_of_find?_eq_some hfind
  · intro hmem
    exact ⟨_, find?_of_mem s.ordered hmem, rfl⟩

/-- All entries stand at places that are spelt out with names of entries. -/
def WellNamed (s : Store) : Prop :=
  ∀ x ∈ s.entries, Place.WellNamed x.1

instance : DecidablePred WellNamed := fun s =>
  inferInstanceAs (Decidable (∀ x ∈ s.entries, Place.WellNamed x.1))

theorem WellNamed.isEntryName {s : Store} (h : s.WellNamed) {dir : Place} {name : Bytes}
    {entry : Entry} (hat : s.at? (dir ++ [name]) = some entry) : Path.IsEntryName name :=
  (Place.wellNamed_concat.mp (h _ ((at?_eq_some_iff (by simp)).mp hat))).2

theorem WellNamed.put {s : Store} (h : s.WellNamed) {place : Place} (hplace : place.WellNamed)
    (entry : Entry) : (s.put place entry).WellNamed := by
  rw [Store.put]
  split
  · exact h
  · intro x hx
    rcases mem_insertEntry hx with rfl | hx
    · exact hplace
    · exact h x hx

end Entries

end Store

namespace Lookup

section Arriving

/-- The place of a spot. -/
def Spot.place : Spot → Place
  | .taken place _ => place
  | .free place => place

theorem wellNamed_start {here : Place} (h : here.WellNamed) (p : Path) :
    Place.WellNamed (start here p) := by
  rw [start]
  split
  · exact fun _ hname => absurd hname List.not_mem_nil
  · exact h

/-- A way along names of entries ends at a place that is spelt out with such names. Links on
the way add the steps of their targets, which are paths themselves. -/
theorem Arrives.wellNamed {s : Store} {purpose : Purpose} {here : Place} {steps : List Step}
    {spot : Spot} (h : Arrives s purpose here steps spot) (hhere : here.WellNamed)
    (hsteps : ∀ name, Step.name name ∈ steps → Path.IsEntryName name) :
    spot.place.WellNamed := by
  induction h with
  | done => exact hhere
  | idle _ _ ih => exact ih hhere fun name hname => hsteps name (List.mem_cons_of_mem _ hname)
  | up _ ih =>
      exact ih hhere.dropLast fun name hname => hsteps name (List.mem_cons_of_mem _ hname)
  | dir _ _ ih =>
      exact ih (Place.wellNamed_concat.mpr ⟨hhere, hsteps _ List.mem_cons_self⟩)
        fun name hname => hsteps name (List.mem_cons_of_mem _ hname)
  | @link _ _ target _ _ _ _ ih =>
      refine ih (wellNamed_start hhere target) fun name hname => ?_
      rcases List.mem_append.mp hname with hname | hname
      · exact Path.isEntryName_of_mem_steps hname
      · exact hsteps name (List.mem_cons_of_mem _ hname)
  | file _ => exact Place.wellNamed_concat.mpr ⟨hhere, hsteps _ List.mem_cons_self⟩
  | kept _ _ => exact Place.wellNamed_concat.mpr ⟨hhere, hsteps _ List.mem_cons_self⟩
  | free _ => exact Place.wellNamed_concat.mpr ⟨hhere, hsteps _ List.mem_cons_self⟩

end Arriving

end Lookup

namespace FileSystem

section Changes

/-- Entries and the working directory have names that entries may have. -/
structure WellNamed (fs : FileSystem) : Prop where
  store : fs.store.WellNamed
  workDir : (fs.workDir.getD []).WellNamed

variable {fs after : FileSystem} {p : Path}

theorem WellNamed.spot (h : fs.WellNamed) {purpose : Lookup.Purpose} {spot : Lookup.Spot}
    (hspot : fs.spot purpose p = .ok spot) : spot.place.WellNamed :=
  (arrives_of_spot hspot).wellNamed (Lookup.wellNamed_start h.workDir p)
    fun _ hname => Path.isEntryName_of_mem_steps hname

theorem WellNamed.put (h : fs.WellNamed) {place : Place} (hplace : place.WellNamed)
    (entry : Entry) : (fs.put place entry).WellNamed :=
  ⟨h.store.put hplace entry, h.workDir⟩

theorem WellNamed.write (h : fs.WellNamed) {policy : WritePolicy} {data : Bytes}
    (hwrite : fs.write policy p data = .ok after) : after.WellNamed := by
  rw [FileSystem.write, openFile] at hwrite
  split at hwrite
  · cases hwrite
  · rename_i place hspot
    cases hwrite
    exact h.put (h.spot hspot) _
  · rename_i place entry hspot
    split at hwrite
    · cases hwrite
    · cases hwrite
      exact h.put (h.spot hspot) _
    · cases hwrite

theorem WellNamed.makeDirsFrom {steps : List Step} {front : Path} (h : fs.WellNamed)
    (hmake : fs.makeDirsFrom front steps = .ok after) : after.WellNamed := by
  induction steps generalizing fs front with
  | nil =>
      cases hmake
      exact h
  | cons step rest ih =>
      cases step with
      | here => exact ih h hmake
      | slash => exact ih h hmake
      | up => exact ih h hmake
      | name n =>
          simp only [FileSystem.makeDirsFrom] at hmake
          split at hmake
          · rename_i place hspot
            exact ih (h.put (h.spot hspot) .dir) hmake
          · split at hmake
            · exact ih h hmake
            · cases hmake
          · cases hmake

theorem WellNamed.makeDirs (h : fs.WellNamed) (hmake : fs.makeDirs p = .ok after) :
    after.WellNamed :=
  h.makeDirsFrom hmake

theorem WellNamed.makeLink (h : fs.WellNamed) {target : Path}
    (hmake : fs.makeLink p target = .ok after) : after.WellNamed := by
  rw [FileSystem.makeLink] at hmake
  split at hmake
  · rename_i place hspot
    cases hmake
    exact h.put (h.spot hspot) _
  · cases hmake
  · cases hmake

theorem WellNamed.remove (h : fs.WellNamed) (hremove : fs.remove p = .ok after) :
    after.WellNamed := by
  rw [FileSystem.remove] at hremove
  split at hremove
  · cases hremove
    exact ⟨fun x hx => h.store x (List.mem_of_mem_filter hx), h.workDir⟩
  · cases hremove
  · cases hremove

/-- The file systems that can be made out of an empty one, one change after the other. -/
inductive Made : FileSystem → Prop
  | empty {workDir : Option Place} (h : (workDir.getD []).WellNamed) : Made ⟨.empty, workDir⟩
  | write {fs after : FileSystem} {policy : WritePolicy} {p : Path} {data : Bytes}
      (h : Made fs) (hwrite : fs.write policy p data = .ok after) : Made after
  | makeDirs {fs after : FileSystem} {p : Path} (h : Made fs)
      (hmake : fs.makeDirs p = .ok after) : Made after
  | makeLink {fs after : FileSystem} {p target : Path} (h : Made fs)
      (hmake : fs.makeLink p target = .ok after) : Made after
  | remove {fs after : FileSystem} {p : Path} (h : Made fs)
      (hremove : fs.remove p = .ok after) : Made after

theorem Made.wellNamed (h : Made fs) : fs.WellNamed := by
  induction h with
  | empty h => exact ⟨fun _ hx => absurd hx List.not_mem_nil, h⟩
  | write _ hwrite ih => exact ih.write hwrite
  | makeDirs _ hmake ih => exact ih.makeDirs hmake
  | makeLink _ hmake ih => exact ih.makeLink hmake
  | remove _ hremove ih => exact ih.remove hremove

end Changes

end FileSystem

end GoTags
