import GoTags.Path

/-!
# Stored files

A place is the list of names on the way to it from the root. The store keeps
what stands at each place, in the order of places: names are compared as byte
strings, one after the other, so that a directory comes right before what is
below it.

**Results.** The order is part of the type; `put` and `remove` keep it. What was
put in stands at its place, and nothing changes elsewhere.
-/

namespace GoTags

/-- A place: the names that lead to it from the root. -/
abbrev Place := List Bytes

/-- The places on the way to a place, from the root to the place itself. -/
def Place.fronts : Place → List Place
  | [] => [[]]
  | n :: rest => [] :: (Place.fronts rest).map (n :: ·)

/-- What stands at a place. -/
inductive Entry where
  | dir
  | file (content : Bytes)
  | link (target : Path)
  deriving DecidableEq, Repr

/-- Whether an entry is a directory. -/
def Entry.isDir : Entry → Bool
  | .dir => true
  | .file _ | .link _ => false

/-- Whether an entry is a file. -/
def Entry.isFile : Entry → Bool
  | .file _ => true
  | .dir | .link _ => false

/-- The entries of a file system by place, without the root. -/
structure Store where
  entries : List (Place × Entry)
  ordered : entries.Pairwise fun a b => a.1 < b.1

namespace Store

section Defs

/-- The store that holds nothing. -/
def empty : Store :=
  ⟨[], .nil⟩

/-- What stands at a place. The root is a directory. -/
def at? (s : Store) (p : Place) : Option Entry :=
  if p = [] then some .dir
  else (s.entries.find? fun x => x.1 = p).map (·.2)

/-- An entry put in at its place, instead of the one that stood there. -/
def insertEntry (p : Place) (e : Entry) : List (Place × Entry) → List (Place × Entry)
  | [] => [(p, e)]
  | (q, f) :: rest =>
      if p < q then (p, e) :: (q, f) :: rest
      else if p = q then (p, e) :: rest
      else (q, f) :: insertEntry p e rest

end Defs

section Order

theorem mem_insertEntry {p : Place} {e : Entry} {x : Place × Entry} :
    {l : List (Place × Entry)} → x ∈ insertEntry p e l → x = (p, e) ∨ x ∈ l
  | [], h => by simpa [insertEntry] using h
  | (q, f) :: rest, h => by
      unfold insertEntry at h
      split at h
      · simpa using h
      · split at h
        · rcases List.mem_cons.1 h with h | h
          · exact .inl h
          · exact .inr (List.mem_cons_of_mem _ h)
        · rcases List.mem_cons.1 h with h | h
          · exact .inr (h ▸ List.mem_cons_self)
          · exact (mem_insertEntry h).imp id (List.mem_cons_of_mem _)

theorem pairwise_insertEntry (p : Place) (e : Entry) :
    (l : List (Place × Entry)) → (l.Pairwise fun a b => a.1 < b.1) →
      (insertEntry p e l).Pairwise fun a b => a.1 < b.1
  | [], _ => by simp [insertEntry]
  | (q, f) :: rest, h => by
      obtain ⟨front, tail⟩ := List.pairwise_cons.1 h
      unfold insertEntry
      split
      · rename_i lt
        refine List.pairwise_cons.2 ⟨fun x hx => ?_, h⟩
        rcases List.mem_cons.1 hx with hx | hx
        · exact hx ▸ lt
        · exact List.lt_trans lt (front x hx)
      · rename_i notLt
        split
        · rename_i eq
          exact List.pairwise_cons.2 ⟨fun x hx => eq ▸ front x hx, tail⟩
        · rename_i ne
          refine List.pairwise_cons.2 ⟨fun x hx => ?_, pairwise_insertEntry p e rest tail⟩
          rcases mem_insertEntry hx with rfl | hx
          · exact Decidable.byContradiction fun no => ne (List.le_antisymm no notLt)
          · exact front x hx

end Order

section Defs

/-- The store with an entry put in at a place. The root stays a directory. -/
def put (s : Store) (p : Place) (e : Entry) : Store :=
  if p = [] then s
  else ⟨insertEntry p e s.entries, pairwise_insertEntry p e s.entries s.ordered⟩

end Defs

section View

/-- An entry that was put in is found at its place. -/
theorem find?_insertEntry_self (p : Place) (e : Entry) (l : List (Place × Entry)) :
    (insertEntry p e l).find? (fun x => x.1 = p) = some (p, e) := by
  induction l with
  | nil => simp [insertEntry]
  | cons x rest ih =>
      obtain ⟨q, f⟩ := x
      unfold insertEntry
      split
      · simp
      · split
        · simp
        · rename_i h
          simp [Ne.symm h, ih]

/-- Other places are as before. -/
theorem find?_insertEntry_of_ne {p q : Place} (h : q ≠ p) (e : Entry)
    (l : List (Place × Entry)) :
    (insertEntry p e l).find? (fun x => x.1 = q) = l.find? (fun x => x.1 = q) := by
  induction l with
  | nil => simp [insertEntry, Ne.symm h]
  | cons x rest ih =>
      obtain ⟨r, f⟩ := x
      unfold insertEntry
      split
      · simp [Ne.symm h]
      · split
        · rename_i hr
          subst hr
          simp [Ne.symm h]
        · simp only [List.find?_cons, ih]

/-- What was put in stands at its place. -/
theorem at?_put_self {p : Place} (hp : p ≠ []) (s : Store) (e : Entry) :
    (s.put p e).at? p = some e := by
  simp [put, at?, hp, find?_insertEntry_self]

/-- Nothing changes at other places. -/
theorem at?_put_of_ne {p q : Place} (h : q ≠ p) (s : Store) (e : Entry) :
    (s.put p e).at? q = s.at? q := by
  unfold put
  split
  · rfl
  · simp [at?, find?_insertEntry_of_ne h]

/-- Of two entries put in at one place, the later one stays. -/
theorem insertEntry_insertEntry (p : Place) (e f : Entry) (l : List (Place × Entry)) :
    insertEntry p f (insertEntry p e l) = insertEntry p f l := by
  induction l with
  | nil => simp [insertEntry, List.lt_irrefl]
  | cons x rest ih =>
      obtain ⟨q, g⟩ := x
      by_cases hlt : p < q
      · simp [insertEntry, hlt, List.lt_irrefl]
      · by_cases heq : p = q
        · simp [insertEntry, heq, List.lt_irrefl]
        · simp [insertEntry, hlt, heq, ih]

theorem put_put (s : Store) (p : Place) (e f : Entry) : (s.put p e).put p f = s.put p f := by
  by_cases hp : p = []
  · simp [put, hp]
  · simp [put, hp, insertEntry_insertEntry]

end View

section Defs

/-- The store without a place and all that is below it. -/
def remove (s : Store) (p : Place) : Store :=
  ⟨s.entries.filter fun x => !p.isPrefixOf x.1, s.ordered.filter _⟩

/-- The name under which a place stands right in a directory. -/
def nameIn? : Place → Place → Option Bytes
  | [], [n] => some n
  | d :: ds, p :: ps => if d = p then nameIn? ds ps else none
  | _, _ => none

/-- What stands right in a directory, by name. -/
def children (s : Store) (dir : Place) : List (Bytes × Entry) :=
  s.entries.filterMap fun x => (nameIn? dir x.1).map (·, x.2)

/-- The number of names on the way to the deepest place. -/
def depth (s : Store) : Nat :=
  s.entries.foldl (fun n x => max n x.1.length) 0

end Defs

end Store
end GoTags
