import GoTags.Tag.Declaration
import GoTags.Text.Decimal

/-!
# Tag records

A record is one line of a tags file: the source line, the name, and the position
of the name. The plain layout writes the three one after the other; the etags
layout puts a DEL byte after the source line and an SOH byte after the name.
-/

namespace GoTags

section Defs

/-- How the parts of a record are kept apart. -/
inductive Layout where
  | legacy
  | etags
  deriving DecidableEq, Repr

/-- A tag: a name, its position and the text of its line. -/
structure Record where
  lineText : String
  name : String
  line : Nat
  byteOffset : Nat
  deriving DecidableEq, Repr

namespace Record

/-- The record of a declaration whose line has a given text. -/
def ofDeclaration (d : Declaration) (lineText : String) : Record :=
  ⟨lineText, d.name, d.line, d.byteOffset⟩

/-- What the etags layout writes after the source line. -/
def afterLine : Layout → Bytes
  | .legacy => []
  | .etags => [0x7f]

/-- What the etags layout writes after the name. -/
def afterName : Layout → Bytes
  | .legacy => []
  | .etags => [0x01]

/-- A record as it stands in a tags file, without the final newline. -/
def body (layout : Layout) (r : Record) : Bytes :=
  Utf8.encode r.lineText ++ afterLine layout ++ Utf8.encode r.name ++ afterName layout ++
    Decimal.write r.line ++ Bytes.comma :: Decimal.write r.byteOffset

/-- A record as it stands in a tags file. -/
def bytes (layout : Layout) (r : Record) : Bytes :=
  body layout r ++ [Bytes.newline]

end Record

end Defs

end GoTags
