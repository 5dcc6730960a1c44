import GoTags.Proofs.Tours
import GoTags.Run.Expand

/-!
# What inputs expand to

**Input.** A list of inputs: files, directories, and paths that lead nowhere.

**Results.**
* `Store.mem_children_iff`, `Store.pairwise_children`: the entries of a directory, in order.
* `Ignore.tour_walk`: the walker that minds rules makes a tour.
* `Ignore.obeys_walker`: so it does with every directory, unless the name of the directory
  stands for the standard input.
* `Expand.mem_sources_iff`, `Expand.pairwise_sources`: what is kept of a tour.
* `Expand.expansion_exact_and_sorted`: what inputs expand to.
-/

namespace GoTags

namespace Store

section Children

theorem nameIn?_eq_some_iff {dir place : Place} {name : Bytes} :
    nameIn? dir place = some name ↔ place = dir ++ [name] := by
  induction dir generalizing place with
  | nil =>
      match place with
      | [] => simp [nameIn?]
      | [n] => simp [nameIn?]
      | _ :: _ :: _ => simp [nameIn?]
  | cons d dir ih =>
      cases place with
      | nil => simp [nameIn?]
      | cons p place =>
          rw [nameIn?]
          by_cases h : d = p
          · simp [h, ih]
          · simp [h, Ne.symm h]

/-- What stands right in a directory. -/
theorem mem_children_iff {s : Store} {dir : Place} {name : Bytes} {entry : Entry} :
    (name, entry) ∈ s.children dir ↔ s.at? (dir ++ [name]) = some entry := by
  rw [at?_eq_some_iff (by simp), children, List.mem_filterMap]
  constructor
  · rintro ⟨⟨place, e⟩, hmem, hname⟩
    obtain ⟨n, hn, heq⟩ := Option.map_eq_some_iff.mp hname
    cases heq
    rwa [← nameIn?_eq_some_iff.mp hn]
  · intro hmem
    exact ⟨(dir ++ [name], entry), hmem, by rw [nameIn?_eq_some_iff.mpr rfl]; rfl⟩

theorem lt_of_concat_lt {dir : Place} {m n : Bytes} (h : dir ++ [m] < dir ++ [n]) : m < n := by
  induction dir with
  | nil => simpa [List.cons_lt_cons_iff] using h
  | cons d dir ih =>
      rw [List.cons_append, List.cons_append, List.cons_lt_cons_iff] at h
      rcases h with h | ⟨-, h⟩
      · exact absurd h (List.lt_irrefl d)
      · exact ih h

/-- The entries of a directory are in the order of their names. -/
theorem pairwise_children (s : Store) (dir : Place) :
    (s.children dir).Pairwise fun a b => a.1 < b.1 := by
  refine s.ordered.filterMap _ ?_
  rintro ⟨p, e⟩ ⟨q, f⟩ hlt a ha b hb
  obtain ⟨m, hm, rfl⟩ := Option.map_eq_some_iff.mp ha
  obtain ⟨n, hn, rfl⟩ := Option.map_eq_some_iff.mp hb
  rw [nameIn?_eq_some_iff.mp hm, nameIn?_eq_some_iff.mp hn] at hlt
  exact lt_of_concat_lt hlt

theorem length_le_foldl {x : Place × Entry} {entries : List (Place × Entry)} {n : Nat}
    (h : x.1.length ≤ n ∨ x ∈ entries) :
    x.1.length ≤ entries.foldl (fun n y => max n y.1.length) n := by
  induction entries generalizing n with
  | nil => exact h.resolve_right List.not_mem_nil
  | cons y rest ih =>
      refine ih ?_
      rcases h with h | h
      · exact Or.inl (h.trans (Nat.le_max_left _ _))
      · rcases List.mem_cons.mp h with rfl | h
        · exact Or.inl (Nat.le_max_right _ _)
        · exact Or.inr h

theorem length_le_depth {s : Store} {place : Place} {entry : Entry}
    (h : (place, entry) ∈ s.entries) : place.length ≤ s.depth :=
  length_le_foldl (Or.inr h)

end Children

end Store

theorem FileSystem.ne_nil_of_dirAt? {fs : FileSystem} {p : Path} {dir : Place}
    (h : fs.dirAt? p = some dir) : p ≠ [] := by
  rintro rfl
  cases h

namespace Ignore

section Levels

theorem fronts_concat (place : Place) (name : Bytes) :
    Place.fronts (place ++ [name]) = Place.fronts place ++ [place ++ [name]] := by
  induction place with
  | nil => rfl
  | cons n place ih => simp [Place.fronts, ih]

theorem levelsTo_concat (fs : FileSystem) (dir : Place) (name : Bytes) :
    levelsTo fs (dir ++ [name]) = Level.ofDir fs (dir ++ [name]) :: levelsTo fs dir := by
  simp [levelsTo, fronts_concat]

theorem levelsAbove_concat (fs : FileSystem) (dir : Place) (name : Bytes) :
    levelsAbove fs (dir ++ [name]) = levelsTo fs dir := by
  rw [levelsAbove, levelsTo_concat]
  rfl

theorem cons_levelsAbove (fs : FileSystem) (dir : Place) :
    Level.ofDir fs dir :: levelsAbove fs dir = levelsTo fs dir := by
  rcases List.eq_nil_or_concat dir with rfl | ⟨front, name, rfl⟩
  · rfl
  · rw [List.concat_eq_append, levelsAbove_concat, levelsTo_concat]

end Levels

section Walks

/-- What is skipped for the rules of the directories on the way and of the user. -/
def skips (user : UserRules) (fs : FileSystem) : Skips := fun dir shown name isDir =>
  passedOver user (levelsTo fs dir) dir shown name isDir

variable {user : UserRules} {fs : FileSystem} {dir : Place} {shown : Path}

/-- Whether an entry of a directory is taken. -/
def takes (user : UserRules) (fs : FileSystem) (dir : Place) (shown : Path)
    (x : Bytes × Entry) : Bool :=
  !skips user fs dir shown x.1 x.2.isDir

/-- What one entry of a directory gives, once it is taken. -/
def visitsOf (user : UserRules) (fs : FileSystem) (fuel : Nat) (dir : Place) (shown : Path)
    (x : Bytes × Entry) : List Visit :=
  ⟨shown.join x.1, x.2.isFile⟩ ::
    if x.2.isDir then
      walk user fs fuel (levelsAbove fs (dir ++ [x.1])) (dir ++ [x.1]) (shown.join x.1)
    else []

theorem walk_succ (user : UserRules) (fs : FileSystem) (fuel : Nat) (dir : Place)
    (shown : Path) :
    walk user fs (fuel + 1) (levelsAbove fs dir) dir shown =
      ((fs.store.children dir).filter (takes user fs dir shown)).flatMap
        (visitsOf user fs fuel dir shown) := by
  rw [walk, cons_levelsAbove]
  induction fs.store.children dir with
  | nil => rfl
  | cons x rest ih =>
      obtain ⟨name, entry⟩ := x
      rw [List.flatMap_cons, ih, List.filter_cons, takes, skips]
      by_cases h : passedOver user (levelsTo fs dir) dir shown name entry.isDir = true
      · simp [h]
      · simp [h, visitsOf, levelsAbove_concat]

/-- The entries that a walk takes in a directory. -/
theorem lists_children (hnamed : fs.store.WellNamed) (hshown : shown ≠ []) :
    Lists fs (skips user fs) dir shown
      ((fs.store.children dir).filter (takes user fs dir shown)) := by
  constructor
  · intro x
    rw [List.mem_filter, Store.mem_children_iff, takes, Bool.not_eq_true']
    exact ⟨fun h => ⟨h.1, h.2⟩, fun h => ⟨h.at_eq, h.not_skipped⟩⟩
  · refine ((Store.pairwise_children fs.store dir).imp_of_mem ?_).filter _
    intro x y hx hy hlt
    have hname := hnamed.isEntryName (Store.mem_children_iff.mp hx)
    have hname' := hnamed.isEntryName (Store.mem_children_iff.mp hy)
    exact (Path.before_join_iff hshown hname hname').mpr hlt

/-- Taking entries one after the other, if what is below the directories among them is
toured. -/
theorem visits_flatMap {fuel : Nat} (entries : List (Bytes × Entry))
    (h : ∀ name, (name, .dir) ∈ entries → Tour fs (skips user fs) (dir ++ [name])
      (shown.join name)
      (walk user fs fuel (levelsAbove fs (dir ++ [name])) (dir ++ [name]) (shown.join name))) :
    Visits fs (skips user fs) dir shown entries
      (entries.flatMap (visitsOf user fs fuel dir shown)) := by
  induction entries with
  | nil => exact .nil
  | cons x entries ih =>
      obtain ⟨name, entry⟩ := x
      have hrest := ih fun n hn => h n (List.mem_cons_of_mem _ hn)
      rw [List.flatMap_cons]
      cases entry with
      | dir =>
          obtain ⟨listed, hlisted, hinner⟩ := h name List.mem_cons_self
          exact .dir hlisted hinner hrest
      | file content => exact .leaf rfl hrest
      | link target => exact .leaf rfl hrest

/-- A walk with enough fuel is a tour. -/
theorem tour_walk (hnamed : fs.store.WellNamed) {fuel : Nat}
    (hfuel : fs.store.depth < fuel + dir.length) (hshown : shown ≠ []) :
    Tour fs (skips user fs) dir shown (walk user fs fuel (levelsAbove fs dir) dir shown) := by
  induction fuel generalizing dir shown with
  | zero =>
      -- nothing is stored as deep as this
      refine ⟨[], ⟨fun x => ?_, .nil⟩, .nil⟩
      simp only [List.not_mem_nil, false_iff]
      intro hkept
      have hlength := Store.length_le_depth ((Store.at?_eq_some_iff (by simp)).mp hkept.at_eq)
      rw [List.length_append] at hlength
      omega
  | succ fuel ih =>
      rw [walk_succ]
      refine ⟨_, lists_children hnamed hshown, visits_flatMap _ fun name hmem => ?_⟩
      have hat := Store.mem_children_iff.mp (List.mem_of_mem_filter hmem)
      refine ih ?_ (Path.join_ne_nil hshown (hnamed.isEntryName hat))
      rw [List.length_append, List.length_singleton]
      omega

/-- The walker that minds rules makes a tour of every directory whose name does not stand
for the standard input. -/
theorem obeys_walker (hnamed : fs.store.WellNamed) {p : Path} (hdir : fs.dirAt? p = some dir)
    (hname : Path.same p standardInput = false) :
    (walker user).Obeys fs (skips user fs) p dir := by
  have hp := FileSystem.ne_nil_of_dirAt? hdir
  have hfuel : fs.store.depth < fs.store.depth + 1 + dir.length := by omega
  refine ⟨_, ?_, tour_walk hnamed hfuel hp⟩
  simp only [walker, hname, hdir, visits]
  rw [if_neg (by simp), List.filterMap_append, List.filterMap_map, List.filterMap_map]
  have herrors : (issues fs dir).filterMap
      (Except.toOption ∘ fun issue => (.error issue : Except String Visit)) = [] :=
    List.filterMap_eq_nil_iff.mpr fun _ _ => rfl
  rw [herrors, List.nil_append]
  exact List.filterMap_some

end Walks

end Ignore

namespace Expand

section Sources

variable {fs : FileSystem} {reader : SourceReader} {walker : Walker} {skips : Skips}
  {dir : Place} {p : Path}

theorem mem_sources_iff {found : List (Except String Visit)} {q : Path} :
    q ∈ sources reader found ↔ ⟨q, true⟩ ∈ visited found ∧ reader.supportsPath q = true := by
  rw [sources, List.mem_map]
  constructor
  · rintro ⟨⟨path, isFile⟩, hv, rfl⟩
    rw [List.mem_filter, Bool.and_eq_true] at hv
    obtain ⟨hv, rfl, hsupports⟩ := hv
    exact ⟨hv, hsupports⟩
  · rintro ⟨hv, hsupports⟩
    exact ⟨⟨q, true⟩, List.mem_filter.mpr ⟨hv, hsupports⟩, rfl⟩

/-- The sources of a directory are the supported files that a way leads down to, if the
walker makes a tour of it. -/
theorem mem_sources_iff_way (hobeys : walker.Obeys fs skips p dir) {q : Path} :
    q ∈ sources reader (walker fs p) ↔
      ∃ names, WayDown fs skips dir p names ∧ q = p.below names ∧
        reader.supportsPath q = true := by
  obtain ⟨visits, hvisits, htour⟩ := hobeys
  have hroot : (⟨q, true⟩ : Visit) ≠ ⟨p, false⟩ := by simp
  rw [mem_sources_iff, visited, hvisits, List.mem_cons, or_iff_right hroot, htour.mem_iff]
  constructor
  · rintro ⟨⟨names, hway, hq⟩, hsupports⟩
    exact ⟨names, hway, hq, hsupports⟩
  · rintro ⟨names, hway, hq, hsupports⟩
    exact ⟨⟨names, hway, hq⟩, hsupports⟩

/-- The sources of a directory are in order if the walker makes a tour of it. -/
theorem pairwise_sources (hnamed : fs.store.WellNamed) (hp : p ≠ [])
    (hobeys : walker.Obeys fs skips p dir) :
    (sources reader (walker fs p)).Pairwise Path.Before := by
  obtain ⟨visits, hvisits, htour⟩ := hobeys
  rw [sources, visited, hvisits, List.filter_cons_of_neg (by simp), List.pairwise_map]
  exact (htour.pairwise hnamed hp).filter _

end Sources

section Inputs

variable {fs : FileSystem}

theorem inputs_singleton (fs : FileSystem) (reader : SourceReader) (walker : Walker) (p : Path) :
    inputs fs reader [p] walker = input fs reader walker p :=
  List.flatMap_singleton ..

theorem input_of_dirAt? {reader : SourceReader} {walker : Walker} {p : Path} {dir : Place}
    (h : fs.dirAt? p = some dir) : input fs reader walker p = sources reader (walker fs p) := by
  rw [input, FileSystem.isDir, h]
  rfl

/-- **What inputs expand to.** Inputs expand one after the other, and an input that is no
directory stays as it is. A directory that the walker makes a tour of expands to the
supported files below it for which neither the file nor a directory on the way is skipped;
they are in the order of their paths, each of them once. The walker that minds rules makes
such a tour of every directory, unless the name of the directory stands for the standard
input: then nothing is found below it. Names in a file system that can be made are as
`WellNamed` asks, by `FileSystem.Made.wellNamed`. -/
theorem expansion_exact_and_sorted (hnamed : fs.store.WellNamed) (reader : SourceReader) :
    (∀ walker ps, inputs fs reader ps walker =
        (ps.map fun p => inputs fs reader [p] walker).flatten) ∧
      (∀ walker p, fs.isDir p = false → inputs fs reader [p] walker = [p]) ∧
      (∀ walker skips p dir, fs.dirAt? p = some dir → Walker.Obeys fs skips walker p dir →
        (inputs fs reader [p] walker).Pairwise Path.Before ∧
          (inputs fs reader [p] walker).Nodup ∧
          ∀ q, q ∈ inputs fs reader [p] walker ↔
            ∃ names, WayDown fs skips dir p names ∧ q = p.below names ∧
              reader.supportsPath q = true) ∧
      ∀ user p dir, fs.dirAt? p = some dir →
        if Path.same p Ignore.standardInput then
          inputs fs reader [p] (Ignore.walker user) = []
        else (Ignore.walker user).Obeys fs (Ignore.skips user fs) p dir := by
  simp only [inputs_singleton]
  refine ⟨fun walker ps => List.flatMap_def .., ?_, ?_, ?_⟩
  · intro walker p hdir
    rw [input, hdir]
    rfl
  · intro walker skips p dir hdir hobeys
    have hordered : (sources reader (walker fs p)).Pairwise Path.Before :=
      pairwise_sources hnamed (FileSystem.ne_nil_of_dirAt? hdir) hobeys
    rw [input_of_dirAt? hdir]
    exact ⟨hordered, hordered.imp Path.Before.ne, fun q => mem_sources_iff_way hobeys⟩
  · intro user p dir hdir
    split
    · rename_i hname
      simp only [input_of_dirAt? hdir, Ignore.walker, hname, if_true]
      rfl
    · rename_i hname
      exact Ignore.obeys_walker hnamed hdir (Bool.eq_false_iff.mpr hname)

/-- A directory and files whose names start with its name. What is below the directory comes
first, although its slash is greater than a dash or a dot. A link, a hidden file and what is
below an ignored directory are left out, but not a hidden file that a rule lets through. Of
a directory whose name stands for the standard input nothing is found. -/
theorem expansion_exact_and_sorted_nested :
    let name := Bytes.ascii
    let store := ((((((((Store.empty.put [name "d"] .dir).put
      [name "d", name ".ignore"] (.file (name "b\n!.x.go\n"))).put
      [name "d", name ".h.go"] (.file [])).put
      [name "d", name ".x.go"] (.file [])).put
      [name "d", name "a"] .dir).put
      [name "d", name "a", name "z.go"] (.file [])).put
      [name "d", name "a-b.go"] (.file [])).put
      [name "d", name "a.go"] (.file [])).put
      [name "d", name "b"] .dir
    let fs : FileSystem := ⟨((((store.put [name "d", name "b", name "c.go"] (.file [])).put
      [name "d", name "l.go"] (.link (name "a.go"))).put
      [name "-"] .dir).put
      [name "-", name "a.go"] (.file [])), some []⟩
    let walker := Ignore.walker {}
    fs.store.WellNamed ∧ fs.dirAt? (name "d") = some [name "d"] ∧
      fs.dirAt? (name "-") = some [name "-"] ∧
      inputs fs (SourceReader.go fs) [name "d"] walker =
        [name "d/.x.go", name "d/a/z.go", name "d/a-b.go", name "d/a.go"] ∧
      (inputs fs (SourceReader.go fs) [name "d"] walker).Pairwise Path.Before ∧
      inputs fs (SourceReader.go fs) [name "-"] walker = [] := by
  intro name store fs walker
  have hnamed : fs.store.WellNamed := by decide
  have hdir : fs.dirAt? (name "d") = some [name "d"] := by decide
  have hinput : fs.dirAt? (name "-") = some [name "-"] := by decide
  obtain ⟨-, -, hexact, hwalker⟩ := expansion_exact_and_sorted hnamed (SourceReader.go fs)
  have hobeys := hwalker {} _ _ hdir
  rw [if_neg (by decide)] at hobeys
  have hstandard := hwalker {} _ _ hinput
  rw [if_pos (by decide)] at hstandard
  exact ⟨hnamed, hdir, hinput, by decide, (hexact _ _ _ _ hdir hobeys).1, hstandard⟩

end Inputs

end Expand

end GoTags
