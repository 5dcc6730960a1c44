import GoTags.Config

/-!
# Arguments

**Input.** The arguments of the command, as bytes.

**Algorithm.** One argument after the other. Options may stand anywhere, short
ones may be combined, and a value may follow its option at once, after an equals
sign, or as the next argument. After `--` everything is a path. The first
argument that cannot be understood, or that asks for help or for the version,
ends the reading.

**Results.** What was asked for, or how the arguments are wrong.
-/

namespace GoTags
namespace Arguments

section Defs

/-- The options that are there or not. -/
inductive Flag where
  | append
  | overwrite
  | strict
  | etagsDelimiters
  | verbose
  deriving DecidableEq, Repr

/-- The options that take a value. -/
inductive Setting where
  | dir
  | name
  | config
  deriving DecidableEq, Repr

/-- An option. -/
inductive Switch where
  | flag (f : Flag)
  | setting (s : Setting)
  | help
  | version
  deriving DecidableEq, Repr

/-- The option with a long name. -/
def longSwitch? : String → Option Switch
  | "append" => some (.flag .append)
  | "overwrite" => some (.flag .overwrite)
  | "strict" => some (.flag .strict)
  | "etags-delimiters" => some (.flag .etagsDelimiters)
  | "verbose" => some (.flag .verbose)
  | "dir" => some (.setting .dir)
  | "name" => some (.setting .name)
  | "config" => some (.setting .config)
  | "help" => some .help
  | "version" => some .version
  | _ => none

/-- The option with a short name. -/
def shortSwitch? (b : UInt8) : Option Switch :=
  match Char.ofNat b.toNat with
  | 'a' => some (.flag .append)
  | 'o' => some (.flag .overwrite)
  | 'v' => some (.flag .verbose)
  | 'd' => some (.setting .dir)
  | 'n' => some (.setting .name)
  | 'c' => some (.setting .config)
  | 'h' => some .help
  | 'V' => some .version
  | _ => none

/-- The name of an option that takes a value, as it is shown. -/
def Setting.shown : Setting → String
  | .dir => "--dir <DIR>"
  | .name => "--name <NAME>"
  | .config => "--config <CONFIG>"

/-- The name of an option that takes none, as it is shown. -/
def Flag.shown : Flag → String
  | .append => "--append"
  | .overwrite => "--overwrite"
  | .strict => "--strict"
  | .etagsDelimiters => "--etags-delimiters"
  | .verbose => "--verbose"

/-- How arguments are wrong. -/
inductive UsageFault where
  | unknown (shown : String)
  | repeated (shown : String)
  | missingValue (shown : String)
  | unexpectedValue (shown : String)
  | unusableValue (shown : String)
  | conflict (shown other : String)
  | noPaths
  deriving DecidableEq, Repr

/-- The words for arguments that are wrong. -/
def UsageFault.message : UsageFault → String
  | .unknown shown => "unexpected argument '" ++ shown ++ "' found"
  | .repeated shown => "the argument '" ++ shown ++ "' cannot be used multiple times"
  | .missingValue shown => "a value is required for '" ++ shown ++ "' but none was supplied"
  | .unexpectedValue shown => "unexpected value for '" ++ shown ++ "' found"
  | .unusableValue shown => "invalid value for '" ++ shown ++ "'"
  | .conflict shown other =>
      "the argument '" ++ shown ++ "' cannot be used with '" ++ other ++ "'"
  | .noPaths => "the following required arguments were not provided:\n  <PATHS>..."

/-- What ends the reading before the last argument. -/
inductive Stop where
  | help
  | version
  | fault (cause : UsageFault)
  deriving DecidableEq, Repr

/-- The arguments read so far. -/
structure Options where
  paths : List Path := []
  dir : Option Path := none
  name : Option String := none
  config : Option Path := none
  flags : List Flag := []
  deriving DecidableEq, Repr

/-- Whether an option was given. -/
def Options.has (o : Options) (f : Flag) : Bool :=
  o.flags.contains f

/-- Options with one that takes no value. -/
def Options.raise (o : Options) (f : Flag) : Except Stop Options :=
  if o.has f then .error (.fault (.repeated f.shown)) else .ok { o with flags := f :: o.flags }

/-- A value as a path, which is not empty. -/
def pathValue (shown : String) (v : Bytes) : Except Stop Path :=
  if v = [] then .error (.fault (.missingValue shown)) else .ok v

/-- Options with one that takes a value. -/
def Options.set (o : Options) (s : Setting) (v : Bytes) : Except Stop Options :=
  match s with
  | .dir =>
      if o.dir.isSome then .error (.fault (.repeated s.shown))
      else (pathValue s.shown v).map fun p => { o with dir := some p }
  | .config =>
      if o.config.isSome then .error (.fault (.repeated s.shown))
      else (pathValue s.shown v).map fun p => { o with config := some p }
  | .name =>
      if o.name.isSome then .error (.fault (.repeated s.shown))
      else
        match Utf8.decode? v with
        | some text => .ok { o with name := some text }
        | none => .error (.fault (.unusableValue s.shown))

/-- Options with one more path. -/
def Options.addPath (o : Options) (v : Bytes) : Except Stop Options :=
  (pathValue "<PATHS>..." v).map fun p => { o with paths := o.paths ++ [p] }

/-- Options after an argument, and the option that waits for its value. -/
abbrev Progress := Options × Option Setting

/-- Reads short options that stand together. -/
def readShorts (o : Options) : Bytes → Except Stop Progress
  | [] => .ok (o, none)
  | b :: rest =>
      match shortSwitch? b with
      | none => .error (.fault (.unknown ("-" ++ Utf8.lossy (b :: rest))))
      | some .help => .error .help
      | some .version => .error .version
      | some (.flag f) =>
          match o.raise f with
          | .ok next => readShorts next rest
          | .error stop => .error stop
      | some (.setting s) =>
          match rest with
          | [] => .ok (o, some s)
          | 0x3d :: v => (o.set s v).map (·, none)
          | v => (o.set s v).map (·, none)

/-- The name of a long option, and the value after an equals sign. -/
def splitLong (body : Bytes) : Bytes × Option Bytes :=
  match Bytes.cut 0x3d body with
  | some (name, v) => (name, some v)
  | none => (body, none)

/-- Reads a long option. -/
def readLong (o : Options) (body : Bytes) : Except Stop Progress :=
  let (name, value?) := splitLong body
  match (Utf8.decode? name).bind longSwitch?, value? with
  | none, _ => .error (.fault (.unknown ("--" ++ Utf8.lossy name)))
  | some .help, none => .error .help
  | some .version, none => .error .version
  | some (.flag f), none => (o.raise f).map (·, none)
  | some (.setting s), none => .ok (o, some s)
  | some (.setting s), some v => (o.set s v).map (·, none)
  | some (.flag f), some _ => .error (.fault (.unexpectedValue f.shown))
  | some .help, some _ => .error (.fault (.unexpectedValue "--help"))
  | some .version, some _ => .error (.fault (.unexpectedValue "--version"))

/-- Whether an argument looks like options: a hyphen and something after it. -/
def looksLikeOption : Bytes → Bool
  | 0x2d :: _ :: _ => true
  | _ => false

/-- Reads an argument that is not the value of an option before it. -/
def readOne (o : Options) (arg : Bytes) : Except Stop Progress :=
  match arg with
  | 0x2d :: 0x2d :: body => readLong o body
  | 0x2d :: b :: rest => readShorts o (b :: rest)
  | v => (o.addPath v).map (·, none)

/-- Reads paths alone. -/
def readPaths (o : Options) : List Bytes → Except Stop Options
  | [] => .ok o
  | v :: rest =>
      match o.addPath v with
      | .ok next => readPaths next rest
      | .error stop => .error stop

/-- The two hyphens after which everything is a path. -/
def pathsFollow : Bytes := [0x2d, 0x2d]

/-- Reads arguments, given the option that waits for its value. -/
def readAll : Progress → List Bytes → Except Stop Options
  | (o, none), [] => .ok o
  | (_, some s), [] => .error (.fault (.missingValue s.shown))
  | (o, some s), arg :: rest =>
      if looksLikeOption arg then .error (.fault (.missingValue s.shown))
      else
        match o.set s arg with
        | .ok next => readAll (next, none) rest
        | .error stop => .error stop
  | (o, none), arg :: rest =>
      if arg = pathsFollow then readPaths o rest
      else
        match readOne o arg with
        | .ok next => readAll next rest
        | .error stop => .error stop

/-- What the arguments ask for. -/
def read (args : List Bytes) : Except Stop Options :=
  match readAll ({}, none) args with
  | .error stop => .error stop
  | .ok o =>
      if o.has .append && o.has .overwrite then
        .error (.fault (.conflict Flag.append.shown Flag.overwrite.shown))
      else if o.paths = [] then .error (.fault .noPaths)
      else .ok o

/-- A configuration with what the options say instead of what it says. -/
def Options.apply (o : Options) (c : Config) : Config :=
  { output :=
      { dir := o.dir.or c.output.dir
        fileName := o.name.getD c.output.fileName
        policy :=
          if o.has .append then .append
          else if o.has .overwrite then .overwrite
          else c.output.policy }
    index :=
      { lineErrors := if o.has .strict then .abort else c.index.lineErrors
        layout := if o.has .etagsDelimiters then .etags else c.index.layout } }

end Defs

end Arguments
end GoTags
