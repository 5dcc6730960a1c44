import GoTags.Text.Bytes

/-!
# Patterns of byte strings

Regular patterns, and whether a byte string fits one: the pattern that is left
after each byte is computed in turn, and what is left at the end must fit the
empty string. The constructors that build what is left drop the parts that can
no longer matter.
-/

namespace GoTags

/-- A set of bytes: those within one of the bounds, or all others. -/
structure ByteSet where
  negated : Bool
  bounds : List (UInt8 × UInt8)
  deriving DecidableEq, Repr

/-- Whether a byte is in a set. -/
def ByteSet.has (s : ByteSet) (b : UInt8) : Bool :=
  (s.bounds.any fun (low, high) => low ≤ b ∧ b ≤ high) != s.negated

/-- The set of all bytes. -/
def ByteSet.all : ByteSet :=
  ⟨true, []⟩

/-- The set of one byte. -/
def ByteSet.only (b : UInt8) : ByteSet :=
  ⟨false, [(b, b)]⟩

/-- The set of all bytes but one. -/
def ByteSet.but (b : UInt8) : ByteSet :=
  ⟨true, [(b, b)]⟩

/-- A regular pattern of byte strings. -/
inductive Pattern where
  | nothing
  | empty
  | byte (set : ByteSet)
  | seq (p q : Pattern)
  | either (p q : Pattern)
  | many (p : Pattern)
  deriving DecidableEq, Repr

namespace Pattern

section Defs

/-- One pattern after the other. -/
def followedBy : Pattern → Pattern → Pattern
  | .nothing, _ => .nothing
  | .empty, q => q
  | _, .nothing => .nothing
  | p, .empty => p
  | p, q => .seq p q

/-- One pattern or the other. -/
def orElse : Pattern → Pattern → Pattern
  | .nothing, q => q
  | p, .nothing => p
  | p, q => if p = q then p else .either p q

/-- The patterns of a list, one after the other. -/
def inOrder (ps : List Pattern) : Pattern :=
  ps.foldr followedBy .empty

/-- Any one of the patterns of a list. -/
def anyOf (ps : List Pattern) : Pattern :=
  ps.foldr orElse .nothing

/-- The pattern of one byte string. -/
def exactly (bytes : Bytes) : Pattern :=
  inOrder (bytes.map fun b => .byte (.only b))

/-- The pattern of every byte string. -/
def anything : Pattern :=
  .many (.byte .all)

/-- Whether a pattern fits the empty string. -/
def fitsEmpty : Pattern → Bool
  | .nothing => false
  | .empty => true
  | .byte _ => false
  | .seq p q => fitsEmpty p && fitsEmpty q
  | .either p q => fitsEmpty p || fitsEmpty q
  | .many _ => true

/-- What is left of a pattern after a byte. -/
def after (b : UInt8) : Pattern → Pattern
  | .nothing => .nothing
  | .empty => .nothing
  | .byte set => if set.has b then .empty else .nothing
  | .seq p q =>
      let first := followedBy (after b p) q
      if fitsEmpty p then orElse first (after b q) else first
  | .either p q => orElse (after b p) (after b q)
  | .many p => followedBy (after b p) (.many p)

/-- Whether a byte string fits a pattern. -/
def fits (p : Pattern) (bytes : Bytes) : Bool :=
  fitsEmpty (bytes.foldl (fun q b => after b q) p)

end Defs

end Pattern
end GoTags
