import GoTags.Ignore.Walk
import GoTags.Proofs.EntryNames

/-!
# Tours of directories

What a walker of directories is to do, and what follows from that for the paths that it
comes to. Only the entries of one directory are compared with each other; what is below a
directory takes its place among them.

**Input.** A file system, and which entries are skipped.

**Results.**
* `Path.components_below`: names put after a path are its last components.
* `Path.before_join_iff`: the paths in one directory are in the order of their names.
* `Visits.exists_way`, `Visits.mem_of_way`, `Tour.mem_iff`: the files of a tour are those that
  a way leads down to on which nothing is skipped.
* `Visits.pairwise`, `Tour.pairwise`: the paths of a tour are in order, over all depths.
-/

namespace GoTags

namespace Path

section Order

/-- The rank of a component among components of other kinds. -/
def Component.rank : Component → Nat
  | .root => 0
  | .here => 1
  | .up => 2
  | .name _ => 3

/-- The order of components: by kind, and names by their bytes. -/
def Component.Lt : Component → Component → Prop
  | .name m, .name n => m < n
  | a, b => a.rank < b.rank

/-- The order of paths: component by component, and a path before those that go on from it. -/
def Before (p q : Path) : Prop :=
  List.Lex Component.Lt p.components q.components

theorem Component.not_lt_self (c : Component) : ¬c.Lt c := by
  cases c with
  | name n => exact List.lt_irrefl n
  | root => exact Nat.lt_irrefl _
  | here => exact Nat.lt_irrefl _
  | up => exact Nat.lt_irrefl _

theorem Before.ne {p q : Path} (h : Before p q) : p ≠ q := by
  rintro rfl
  exact List.lex_irrefl Component.not_lt_self _ h

end Order

section Names

/-- The path of what is reached from another path through names. -/
def below (shown : Path) (names : List Bytes) : Path :=
  names.foldl join shown

theorem component?_of_isEntryName {name : Bytes} (h : IsEntryName name) :
    component? name = some (.name name) := by
  obtain ⟨hnil, -, hdot, hdots⟩ := h
  simp [component?, hnil, hdot, hdots]

theorem isAbsolute_append {p : Path} (h : p ≠ []) (rest : Bytes) :
    isAbsolute (p ++ rest) = isAbsolute p := by
  obtain ⟨b, p, rfl⟩ := List.exists_cons_of_ne_nil h
  rfl

theorem head?_splitOn_append (p : Path) (more : List Bytes) :
    (Bytes.splitOn Bytes.slash p ++ more).head? = (Bytes.splitOn Bytes.slash p).head? :=
  List.head?_append_of_ne_nil _ (Bytes.splitOn_ne_nil _ p)

theorem components_append_slash (p : Path) (rest : Bytes) :
    components (p ++ Bytes.slash :: rest) =
      components (p ++ [Bytes.slash]) ++
        (Bytes.splitOn Bytes.slash rest).filterMap component? := by
  have hfront : isAbsolute (p ++ Bytes.slash :: rest) = isAbsolute (p ++ [Bytes.slash]) := by
    cases p <;> rfl
  simp only [components, Bytes.splitOn_append_sep, hfront, head?_splitOn_append,
    List.filterMap_append, List.append_assoc]
  simp [Bytes.splitOn, component?]

/-- A slash at the end does not count. -/
theorem components_append_nil {p : Path} (h : p ≠ []) :
    components (p ++ [Bytes.slash]) = components p := by
  simp only [components, Bytes.splitOn_append_sep, isAbsolute_append h, head?_splitOn_append,
    List.filterMap_append]
  simp [Bytes.splitOn, component?]

theorem components_join {p : Path} (hp : p ≠ []) {name : Bytes} (h : IsEntryName name) :
    components (p.join name) = components p ++ [.name name] := by
  have hname : (Bytes.splitOn Bytes.slash name).filterMap component? = [.name name] := by
    rw [Bytes.splitOn_of_not_mem h.2.1, List.filterMap_cons_some (component?_of_isEntryName h)]
    rfl
  have hrelative : isAbsolute name = false := by
    cases name with
    | nil => rfl
    | cons b name =>
        have hb : b ≠ Bytes.slash := fun hb => h.2.1 (hb ▸ List.mem_cons_self)
        simp [isAbsolute, hb]
  rw [join, if_neg (by simp [hrelative])]
  by_cases hlast : p.getLast? = some Bytes.slash
  · rw [if_pos (Or.inr hlast)]
    obtain ⟨front, rfl⟩ := List.getLast?_eq_some_iff.mp hlast
    rw [List.append_assoc, List.singleton_append, components_append_slash, hname]
  · rw [if_neg (by simp [hp, hlast]), components_append_slash, components_append_nil hp, hname]

theorem join_ne_nil {p : Path} (hp : p ≠ []) {name : Bytes} (h : IsEntryName name) :
    p.join name ≠ [] := by
  unfold join
  split_ifs
  · exact h.1
  · simp [hp]
  · simp

/-- Names put after a path are its last components. -/
theorem components_below {names : List Bytes} (h : ∀ name ∈ names, IsEntryName name) {p : Path}
    (hp : p ≠ []) : components (below p names) = components p ++ names.map .name := by
  induction names generalizing p with
  | nil => simp [below]
  | cons name names ih =>
      rw [List.forall_mem_cons] at h
      have hnames := ih h.2 (join_ne_nil hp h.1)
      rw [below, List.foldl_cons, ← below, hnames, components_join hp h.1]
      simp

/-- Paths in one directory are in the order of their names. -/
theorem before_join_iff {p : Path} (hp : p ≠ []) {m n : Bytes} (hm : IsEntryName m)
    (hn : IsEntryName n) : Before (p.join m) (p.join n) ↔ m < n := by
  rw [Before, components_join hp hm, components_join hp hn]
  generalize components p = front
  induction front with
  | nil =>
      constructor
      · intro h
        cases h with
        | rel h => exact h
        | cons h => cases h
      · exact fun h => .rel h
  | cons c front ih =>
      rw [← ih]
      constructor
      · intro h
        cases h with
        | rel h => exact absurd h c.not_lt_self
        | cons h => exact h
      · exact fun h => .cons h

/-- A path is before what is below it. -/
theorem before_below_self {p : Path} (hp : p ≠ []) {n : Bytes} {ns : List Bytes}
    (hns : ∀ name ∈ n :: ns, IsEntryName name) : Before p (below p (n :: ns)) := by
  rw [Before, components_below hns hp]
  induction components p with
  | nil => exact .nil
  | cons c front ih => exact .cons ih

/-- Of two ways down through names, the one that turns to the lesser name first is before. -/
theorem before_below {p : Path} (hp : p ≠ []) {m n : Bytes} (hmn : m < n) {ms ns : List Bytes}
    (hms : ∀ name ∈ m :: ms, IsEntryName name) (hns : ∀ name ∈ n :: ns, IsEntryName name) :
    Before (below p (m :: ms)) (below p (n :: ns)) := by
  have hlt : Component.Lt (.name m) (.name n) := hmn
  rw [Before, components_below hms hp, components_below hns hp]
  exact List.Lex.append_left _ (.rel hlt) _

end Names

end Path

section Tours

/-- Which entries of a directory are skipped, given its place and its path, the name of the
entry, and whether the entry is a directory. -/
abbrev Skips := Place → Path → Bytes → Bool → Bool

variable (fs : FileSystem) (skips : Skips)

/-- A name and what stands under it in a directory, if it is not skipped. -/
structure Kept (dir : Place) (shown : Path) (x : Bytes × Entry) : Prop where
  at_eq : fs.store.at? (dir ++ [x.1]) = some x.2
  not_skipped : skips dir shown x.1 x.2.isDir = false

/-- `entries` are those of a directory that are not skipped, each of them once, in the order
of their paths. -/
structure Lists (dir : Place) (shown : Path) (entries : List (Bytes × Entry)) : Prop where
  mem_iff : ∀ x, x ∈ entries ↔ Kept fs skips dir shown x
  ordered : entries.Pairwise fun x y => Path.Before (shown.join x.1) (shown.join y.1)

/-- `visits` are what is come to if `entries` of a directory are taken one after the other,
and right after each directory those that are listed in it. What is not a directory has
nothing below it, also if it is a link to one. -/
inductive Visits : Place → Path → List (Bytes × Entry) → List Visit → Prop
  | nil {dir : Place} {shown : Path} : Visits dir shown [] []
  | leaf {dir : Place} {shown : Path} {name : Bytes} {entry : Entry}
      {entries : List (Bytes × Entry)} {rest : List Visit}
      (hleaf : entry.isDir = false) (h : Visits dir shown entries rest) :
      Visits dir shown ((name, entry) :: entries) (⟨shown.join name, entry.isFile⟩ :: rest)
  | dir {dir : Place} {shown : Path} {name : Bytes} {entries listed : List (Bytes × Entry)}
      {inner rest : List Visit}
      (hlisted : Lists fs skips (dir ++ [name]) (shown.join name) listed)
      (hinner : Visits (dir ++ [name]) (shown.join name) listed inner)
      (h : Visits dir shown entries rest) :
      Visits dir shown ((name, .dir) :: entries) (⟨shown.join name, false⟩ :: (inner ++ rest))

/-- `visits` are what is come to below a directory. -/
def Tour (dir : Place) (shown : Path) (visits : List Visit) : Prop :=
  ∃ entries, Lists fs skips dir shown entries ∧ Visits fs skips dir shown entries visits

/-- A walker makes a tour of the directory at a path: whatever goes wrong, it comes to the
directory itself and then to what is below it. -/
def Walker.Obeys (walker : Walker) (p : Path) (dir : Place) : Prop :=
  ∃ visits, (walker fs p).filterMap Except.toOption = ⟨p, false⟩ :: visits ∧
    Tour fs skips dir p visits

/-- Names that lead from a directory down to a file: through directories, none of which is
skipped, and neither is the file. -/
inductive WayDown : Place → Path → List Bytes → Prop
  | file {dir : Place} {shown : Path} {name content : Bytes}
      (hkept : Kept fs skips dir shown (name, .file content)) : WayDown dir shown [name]
  | dir {dir : Place} {shown : Path} {name : Bytes} {rest : List Bytes}
      (hkept : Kept fs skips dir shown (name, .dir))
      (h : WayDown (dir ++ [name]) (shown.join name) rest) : WayDown dir shown (name :: rest)

end Tours

section Files

variable {fs : FileSystem} {skips : Skips} {dir : Place} {shown : Path}
  {entries : List (Bytes × Entry)} {visits : List Visit}

theorem Lists.kept (h : Lists fs skips dir shown entries) :
    ∀ x ∈ entries, Kept fs skips dir shown x :=
  fun x hx => (h.mem_iff x).mp hx

/-- Only one thing stands under a name. -/
theorem Kept.entry_eq {name : Bytes} {entry entry' : Entry}
    (h : Kept fs skips dir shown (name, entry)) (h' : Kept fs skips dir shown (name, entry')) :
    entry = entry' :=
  Option.some.inj (h.at_eq.symm.trans h'.at_eq)

theorem WayDown.exists_cons {names : List Bytes} (h : WayDown fs skips dir shown names) :
    ∃ name rest entry, names = name :: rest ∧ Kept fs skips dir shown (name, entry) := by
  cases h with
  | file hkept => exact ⟨_, _, _, rfl, hkept⟩
  | dir hkept _ => exact ⟨_, _, _, rfl, hkept⟩

/-- The files that are come to are reached through the entries that are taken. -/
theorem Visits.exists_way (h : Visits fs skips dir shown entries visits)
    (hkept : ∀ x ∈ entries, Kept fs skips dir shown x) {q : Path} (hq : ⟨q, true⟩ ∈ visits) :
    ∃ names, WayDown fs skips dir shown names ∧ q = shown.below names := by
  induction h with
  | nil => cases hq
  | @leaf dir shown name entry entries rest _ _ ih =>
      rw [List.forall_mem_cons] at hkept
      rcases List.mem_cons.mp hq with heq | hq
      · obtain ⟨rfl, hfile⟩ := Visit.mk.inj heq
        cases entry with
        | file content => exact ⟨[name], .file hkept.1, rfl⟩
        | dir => cases hfile
        | link target => cases hfile
      · exact ih hkept.2 hq
  | @dir dir shown name entries listed inner rest hlisted _ _ ihinner ih =>
      rw [List.forall_mem_cons] at hkept
      rcases List.mem_cons.mp hq with heq | hq
      · cases heq
      · rcases List.mem_append.mp hq with hq | hq
        · obtain ⟨names, hway, rfl⟩ := ihinner hlisted.kept hq
          exact ⟨name :: names, .dir hkept.1 hway, rfl⟩
        · exact ih hkept.2 hq

/-- All files that are reached through the entries that are taken are come to. -/
theorem Visits.mem_of_way (h : Visits fs skips dir shown entries visits)
    (hkept : ∀ x ∈ entries, Kept fs skips dir shown x)
    {name : Bytes} {rest : List Bytes} (hway : WayDown fs skips dir shown (name :: rest))
    (hmem : name ∈ entries.map Prod.fst) : ⟨shown.below (name :: rest), true⟩ ∈ visits := by
  induction h generalizing name rest with
  | nil => cases hmem
  | @leaf dir shown first entry entries later hleaf _ ih =>
      rw [List.forall_mem_cons] at hkept
      rcases List.mem_cons.mp hmem with rfl | hmem
      · cases hway with
        | file hfile =>
            obtain rfl := hkept.1.entry_eq hfile
            exact List.mem_cons_self
        | dir hdir _ =>
            obtain rfl := hkept.1.entry_eq hdir
            cases hleaf
      · exact List.mem_cons_of_mem _ (ih hkept.2 hway hmem)
  | @dir dir shown first entries listed inner later hlisted _ _ ihinner ih =>
      rw [List.forall_mem_cons] at hkept
      refine List.mem_cons_of_mem _ (List.mem_append.mpr ?_)
      rcases List.mem_cons.mp hmem with rfl | hmem
      · cases hway with
        | file hfile => cases hkept.1.entry_eq hfile
        | dir _ hway =>
            obtain ⟨next, rest, entry, rfl, hnext⟩ := hway.exists_cons
            have hmem := (hlisted.mem_iff (next, entry)).mpr hnext
            exact .inl (ihinner hlisted.kept hway (List.mem_map_of_mem hmem))
      · exact .inr (ih hkept.2 hway hmem)

/-- The files of a tour are those that a way leads down to. -/
theorem Tour.mem_iff (h : Tour fs skips dir shown visits) {q : Path} :
    ⟨q, true⟩ ∈ visits ↔ ∃ names, WayDown fs skips dir shown names ∧ q = shown.below names := by
  obtain ⟨entries, hlists, hvisits⟩ := h
  refine ⟨hvisits.exists_way hlists.kept, ?_⟩
  rintro ⟨names, hway, rfl⟩
  obtain ⟨name, rest, entry, rfl, hkept⟩ := hway.exists_cons
  have hmem := (hlists.mem_iff (name, entry)).mpr hkept
  exact hvisits.mem_of_way hlists.kept hway (List.mem_map_of_mem hmem)

end Files

section Order

variable {fs : FileSystem} {skips : Skips} {dir : Place} {shown : Path}
  {entries : List (Bytes × Entry)} {visits : List Visit}

theorem Lists.isEntryName (h : Lists fs skips dir shown entries) (hnamed : fs.store.WellNamed) :
    ∀ x ∈ entries, Path.IsEntryName x.1 :=
  fun x hx => hnamed.isEntryName (h.kept x hx).at_eq

/-- What is come to starts with the name of an entry that is taken. -/
theorem Visits.exists_names (h : Visits fs skips dir shown entries visits)
    (hnamed : fs.store.WellNamed) (hentries : ∀ x ∈ entries, Path.IsEntryName x.1) {v : Visit}
    (hv : v ∈ visits) :
    ∃ x ∈ entries, ∃ rest, v.path = shown.below (x.1 :: rest) ∧
      ∀ name ∈ x.1 :: rest, Path.IsEntryName name := by
  induction h with
  | nil => cases hv
  | @leaf dir shown name entry entries rest _ _ ih =>
      rw [List.forall_mem_cons] at hentries
      rcases List.mem_cons.mp hv with rfl | hv
      · exact ⟨_, List.mem_cons_self, [], rfl, List.forall_mem_singleton.mpr hentries.1⟩
      · obtain ⟨x, hx, hnames⟩ := ih hentries.2 hv
        exact ⟨x, List.mem_cons_of_mem _ hx, hnames⟩
  | @dir dir shown name entries listed inner rest hlisted _ _ ihinner ih =>
      rw [List.forall_mem_cons] at hentries
      rcases List.mem_cons.mp hv with rfl | hv
      · exact ⟨_, List.mem_cons_self, [], rfl, List.forall_mem_singleton.mpr hentries.1⟩
      · rcases List.mem_append.mp hv with hv | hv
        · obtain ⟨x, -, names, hpath, hnames⟩ := ihinner (hlisted.isEntryName hnamed) hv
          exact ⟨_, List.mem_cons_self, x.1 :: names, hpath,
            List.forall_mem_cons.mpr ⟨hentries.1, hnames⟩⟩
        · obtain ⟨x, hx, hnames⟩ := ih hentries.2 hv
          exact ⟨x, List.mem_cons_of_mem _ hx, hnames⟩

/-- What starts with the name of an entry is before what is come to through later ones. -/
theorem Visits.before (h : Visits fs skips dir shown entries visits) (hnamed : fs.store.WellNamed)
    (hentries : ∀ x ∈ entries, Path.IsEntryName x.1) (hshown : shown ≠ []) {name : Bytes}
    {names : List Bytes} (hnames : ∀ n ∈ name :: names, Path.IsEntryName n)
    (hlater : ∀ x ∈ entries, Path.Before (shown.join name) (shown.join x.1)) :
    ∀ v ∈ visits, Path.Before (shown.below (name :: names)) v.path := by
  intro v hv
  obtain ⟨x, hx, rest, hpath, hrest⟩ := h.exists_names hnamed hentries hv
  have hlt := (Path.before_join_iff hshown (hnames name List.mem_cons_self)
    (hentries x hx)).mp (hlater x hx)
  rw [hpath]
  exact Path.before_below hshown hlt hnames hrest

/-- What is come to is in order. Entries of one directory are, and all that is come to below
one of them starts with its name. -/
theorem Visits.pairwise (h : Visits fs skips dir shown entries visits)
    (hnamed : fs.store.WellNamed) (hentries : ∀ x ∈ entries, Path.IsEntryName x.1)
    (hordered : entries.Pairwise fun x y => Path.Before (shown.join x.1) (shown.join y.1))
    (hshown : shown ≠ []) : visits.Pairwise fun v w => Path.Before v.path w.path := by
  induction h with
  | nil => exact .nil
  | @leaf dir shown name entry entries rest _ hrest ih =>
      rw [List.forall_mem_cons] at hentries
      rw [List.pairwise_cons] at hordered ⊢
      have hname := List.forall_mem_singleton.mpr hentries.1
      exact ⟨hrest.before hnamed hentries.2 hshown hname hordered.1,
        ih hentries.2 hordered.2 hshown⟩
  | @dir dir shown name entries listed inner rest hlisted hinner hrest ihinner ih =>
      rw [List.forall_mem_cons] at hentries
      rw [List.pairwise_cons] at hordered
      have hnames := hlisted.isEntryName hnamed
      have hjoin := Path.join_ne_nil hshown hentries.1
      rw [List.pairwise_cons, List.forall_mem_append, List.pairwise_append]
      refine ⟨⟨?_, ?_⟩, ihinner hnames hlisted.ordered hjoin, ih hentries.2 hordered.2 hshown, ?_⟩
      · intro v hv
        obtain ⟨x, -, names, hpath, hbelow⟩ := hinner.exists_names hnamed hnames hv
        rw [hpath]
        exact Path.before_below_self hjoin hbelow
      · have hname := List.forall_mem_singleton.mpr hentries.1
        exact hrest.before hnamed hentries.2 hshown hname hordered.1
      · intro v hv
        obtain ⟨x, -, names, hpath, hbelow⟩ := hinner.exists_names hnamed hnames hv
        rw [hpath]
        exact hrest.before hnamed hentries.2 hshown
          (List.forall_mem_cons.mpr ⟨hentries.1, hbelow⟩) hordered.1

/-- The paths of a tour are in order. -/
theorem Tour.pairwise (h : Tour fs skips dir shown visits) (hnamed : fs.store.WellNamed)
    (hshown : shown ≠ []) : visits.Pairwise fun v w => Path.Before v.path w.path := by
  obtain ⟨entries, hlists, hvisits⟩ := h
  exact hvisits.pairwise hnamed (hlists.isEntryName hnamed) hlists.ordered hshown

end Order

end GoTags
