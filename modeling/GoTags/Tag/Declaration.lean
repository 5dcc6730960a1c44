import GoTags.Path

/-!
# Declarations

A source is first read as a list of top-level items; the declarations that get
a tag are those items taken apart, one for each declared name. The blank name
`_` declares nothing that could be looked up, so it is left out.
-/

namespace GoTags

section Defs

/-- A declared name and where it stands: 1-based line, offset in bytes. -/
structure Ident where
  name : String
  line : Nat
  byteOffset : Nat
  deriving DecidableEq, Repr

/-- An item at the top level of a source. Functions include methods; a value
item is one specification and may declare several names. -/
inductive TopLevel where
  | function (ident : Ident)
  | type (ident : Ident)
  | value (idents : List Ident)
  | other (kind : String)
  deriving DecidableEq, Repr

/-- A source read into its top-level items. -/
structure SourceTree where
  path : String
  items : List TopLevel
  deriving DecidableEq, Repr

/-- What a tag is for. -/
inductive DeclKind where
  | function
  | type
  | value
  deriving DecidableEq, Repr

/-- A declared name with the file it is declared in. -/
structure Declaration where
  kind : DeclKind
  name : String
  file : Path
  line : Nat
  byteOffset : Nat
  deriving DecidableEq, Repr

/-- The names that an item declares, with their kind. -/
def TopLevel.idents : TopLevel → List (DeclKind × Ident)
  | .function i => [(.function, i)]
  | .type i => [(.type, i)]
  | .value is => is.map fun i => (.value, i)
  | .other _ => []

/-- The name that declares nothing. -/
def blankName : String := "_"

/-- The declaration of a name in a file. -/
def Ident.declare (file : Path) (kind : DeclKind) (i : Ident) : Declaration :=
  ⟨kind, i.name, file, i.line, i.byteOffset⟩

/-- The declarations of a source, in order, without blank names. -/
def SourceTree.declarations (tree : SourceTree) : List Declaration :=
  (tree.items.flatMap TopLevel.idents).filterMap fun (kind, i) =>
    if i.name = blankName then none
    else some (i.declare (Utf8.encode tree.path) kind)

end Defs

end GoTags
