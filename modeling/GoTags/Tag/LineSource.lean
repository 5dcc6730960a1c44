import GoTags.Event
import GoTags.Fault

/-!
# Sources of lines

Records quote the line that a name stands on, so building them needs something
that knows the lines of files. A source of lines may keep state from one call to
the next, and takes notes of events in that state.
-/

namespace GoTags

/-- Something that knows the lines of files, with state `σ`. -/
structure LineSource (σ : Type) where
  /-- The text of a line, numbered from 1. -/
  resolve : Path → Nat → σ → Except Fault String × σ
  /-- Lets go of what is remembered about files. -/
  forget : σ → σ
  /-- Takes note of an event. -/
  note : Event → σ → σ

/-- Lines that are given outright: the first entry for the file, spelt the same,
and the line number answers. -/
def LineSource.given (lines : List (Path × Nat × String)) : LineSource Unit where
  resolve path line s :=
    match lines.find? fun (p, n, _) => p = path ∧ n = line with
    | some (_, _, text) => (.ok text, s)
    | none => (.error (.line (Path.display path) line (.reported "not given")), s)
  forget := id
  note _ := id

end GoTags
