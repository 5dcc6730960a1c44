import GoTags.Files.Persist
import GoTags.Tag.Chunk
import GoTags.Toml.Document

/-!
# Configuration

Where and how the tags file is written, and how records are produced. A
configuration is a TOML document in which everything is optional: what is not
given has its default, and keys that mean nothing here are passed over.

A table may also be given as an array of its fields in order, and one of several
words as a table with that word as its only key and nothing in it.
-/

namespace GoTags

section Defs

/-- Where and how the tags file is written. -/
structure OutputConfig where
  dir : Option Path := none
  fileName : String := "TAGS"
  policy : WritePolicy := .createOnly
  deriving DecidableEq, Repr

/-- A configuration. -/
structure Config where
  output : OutputConfig := {}
  index : IndexConfig := {}
  deriving DecidableEq, Repr

/-- The words for the policies. -/
def WritePolicy.words : List (String × WritePolicy) :=
  [("create_only", .createOnly), ("append", .append), ("overwrite", .overwrite)]

/-- The words for what to do about lines that cannot be had. -/
def LineErrors.words : List (String × LineErrors) :=
  [("skip", .skip), ("abort", .abort)]

/-- The words for the layouts. -/
def Layout.words : List (String × Layout) :=
  [("legacy", .legacy), ("etags", .etags)]

/-- The word for what to do about lines that cannot be had. -/
def LineErrors.word : LineErrors → String
  | .skip => "skip"
  | .abort => "abort"

/-- The word for a layout. -/
def Layout.word : Layout → String
  | .legacy => "legacy"
  | .etags => "etags"

namespace Config

/-- Whether a value holds nothing. -/
def isHollow : Toml.Value → Bool
  | .array elements => elements.isEmpty
  | .table _ entries => entries.isEmpty
  | .tables elements => elements.isEmpty
  | _ => false

/-- The meaning of a word among words. -/
def meaning? {α : Type} (words : List (String × α)) (word : String) : Option α :=
  (words.find? fun x => x.1 = word).map (·.2)

/-- The meaning of a value that gives one of several words. -/
def choice? {α : Type} (words : List (String × α)) : Toml.Value → Option α
  | .string word => meaning? words word
  | .table _ [(word, inner)] => if isHollow inner then meaning? words word else none
  | _ => none

/-- The text of a value that is a text. -/
def text? : Toml.Value → Option String
  | .string text => some text
  | _ => none

/-- The values of fields, none for those that are not given. A date or time has
none of the fields. -/
def fields? (names : List String) : Toml.Value → Option (String → Option Toml.Value)
  | .table _ entries => some (Toml.Entries.get? entries)
  | .array elements => some fun name => ((names.zip elements).find? (·.1 = name)).map (·.2)
  | .tables elements =>
      some fun name => ((names.zip elements).find? (·.1 = name)).map fun x => .table .header x.2
  | .dateTime _ => some fun _ => none
  | _ => none

/-- A field of a table: its default if it is not given. -/
def field {α : Type} (table name : String) (read? : Toml.Value → Option α) (default : α)
    (fields : String → Option Toml.Value) : Except ConfigFault α :=
  match fields name with
  | none => .ok default
  | some v =>
      match read? v with
      | some a => .ok a
      | none => .error (.value (table ++ "." ++ name))

/-- How the tags file is written, given the fields. -/
def readOutput (fields : String → Option Toml.Value) : Except ConfigFault OutputConfig := do
  let dir ← field "output" "dir" (fun v => (text? v).map fun t => some (Utf8.encode t)) none fields
  let fileName ← field "output" "file_name" text? "TAGS" fields
  let policy ← field "output" "policy" (choice? WritePolicy.words) .createOnly fields
  return { dir, fileName, policy }

/-- How records are produced, given the fields. -/
def readIndex (fields : String → Option Toml.Value) : Except ConfigFault IndexConfig := do
  let lineErrors ← field "index" "line_errors" (choice? LineErrors.words) .skip fields
  let layout ← field "index" "layout" (choice? Layout.words) .legacy fields
  return { lineErrors, layout }

/-- A table of the configuration: its default if it is not given. -/
def part {α : Type} (name : String) (names : List String)
    (read : (String → Option Toml.Value) → Except ConfigFault α) (default : α)
    (entries : Toml.Entries) : Except ConfigFault α :=
  match entries.get? name with
  | none => .ok default
  | some v =>
      match fields? names v with
      | some fields => read fields
      | none => .error (.value name)

/-- The configuration that a document gives. -/
def ofEntries (entries : Toml.Entries) : Except ConfigFault Config := do
  let output ← part "output" ["dir", "file_name", "policy"] readOutput {} entries
  let index ← part "index" ["line_errors", "layout"] readIndex {} entries
  return { output, index }

/-- The configuration that a text gives. -/
def read (text : String) : Except ConfigFault Config :=
  match Toml.read text with
  | .ok entries => ofEntries entries
  | .error number => .error (.line number)

/-- A character inside quotes. -/
def quoteChar (c : Char) : List Char :=
  if c = '"' then ['\\', '"']
  else if c = '\\' then ['\\', '\\']
  else if c = '\t' then ['\\', 't']
  else if Toml.isPlain c then [c]
  else ['\\', 'u', '0', '0', hexDigit (c.toNat / 16), hexDigit (c.toNat % 16)]

/-- A text in quotes. -/
def quote (text : String) : String :=
  "\"" ++ String.ofList (text.toList.flatMap quoteChar) ++ "\""

/-- A line that gives a field. -/
def fieldLine (name text : String) : String :=
  name ++ " = " ++ quote text ++ "\n"

/-- A configuration as a document. -/
def render (c : Config) : String :=
  "[output]\n" ++
    (match c.output.dir with
     | some dir => fieldLine "dir" (Path.display dir)
     | none => "") ++
    fieldLine "file_name" c.output.fileName ++
    fieldLine "policy" c.output.policy.word ++
    "\n[index]\n" ++
    fieldLine "line_errors" c.index.lineErrors.word ++
    fieldLine "layout" c.index.layout.word

/-- The configuration in a file. -/
def load (fs : FileSystem) (p : Path) : Except Fault Config :=
  match fs.readText p with
  | .error cause => .error (.file cause)
  | .ok text => (read text).mapError .config

/-- Where the configuration of a user is kept, given the home directory. -/
def defaultPath (home : Path) : Path :=
  (home.join (Bytes.ascii ".tago")).join (Bytes.ascii "config.toml")

/-- What is noted about a configuration that is passed over. -/
def ignoredEvent (p : Path) (fault : Fault) : Event :=
  ⟨.warn, .config, "Ignoring " ++ Path.display p ++ ": " ++ fault.message⟩

/-- The configuration of a user, or the default one; and what is noted if there is
one that cannot be used. -/
def loadOrDefault (fs : FileSystem) (home : Path) : Config × List Event :=
  let p := defaultPath home
  if fs.pathExists p then
    match load fs p with
    | .ok c => (c, [])
    | .error fault => ({}, [ignoredEvent p fault])
  else ({}, [])

end Config

namespace OutputConfig

/-- The directory of the tags file: the working directory unless another is
given, and an empty path if there is none. -/
def directory (c : OutputConfig) (fs : FileSystem) : Path :=
  c.dir.getD (fs.workPath?.getD [])

/-- The path of the tags file. -/
def destination (c : OutputConfig) (fs : FileSystem) : Path :=
  (c.directory fs).join (Utf8.encode c.fileName)

/-- What is noted when there is no working directory to write to. -/
def events (c : OutputConfig) (fs : FileSystem) : List Event :=
  match c.dir, fs.workDir with
  | none, none =>
      [⟨.warn, .config, "Error getting working directory: " ++ FileFault.notFound.message⟩]
  | _, _ => []

end OutputConfig

end Defs

end GoTags
