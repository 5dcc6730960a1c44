import GoTags.Path

/-!
# Faults

Everything that can go wrong is a value: what failed, and why. The wording is
kept apart from the causes, in one `message` function for each kind of cause.
-/

namespace GoTags

section Defs

/-- Why the file system refused. -/
inductive FileFault where
  | notFound
  | alreadyExists
  | notADirectory
  | isADirectory
  | nameTooLong
  | tooManyLinks
  | nulInPath
  | notText
  | reported (text : String)
  deriving DecidableEq, Repr

/-- The words for a refusal of the file system. -/
def FileFault.message : FileFault → String
  | .notFound => "No such file or directory (os error 2)"
  | .alreadyExists => "File exists (os error 17)"
  | .notADirectory => "Not a directory (os error 20)"
  | .isADirectory => "Is a directory (os error 21)"
  | .nameTooLong => "File name too long (os error 36)"
  | .tooManyLinks => "Too many levels of symbolic links (os error 40)"
  | .nulInPath => "file name contained an unexpected NUL byte"
  | .notText => "stream did not contain valid UTF-8"
  | .reported text => text

/-- Why a source has no declarations to offer. A syntax error has one wording: that a token
of some kind is missing is not told apart. -/
inductive ParseFault where
  | unsupportedType
  | invalidUtf8 (line column : Nat)
  | syntaxError (line column : Nat)
  | unreadable (cause : FileFault)
  | reported (text : String)
  deriving DecidableEq, Repr

/-- The words for a source that could not be parsed. -/
def ParseFault.message : ParseFault → String
  | .unsupportedType => "unsupported file type"
  | .invalidUtf8 line column =>
      "invalid UTF-8 at line " ++ toString line ++ ", column " ++ toString column
  | .syntaxError line column =>
      "syntax error at line " ++ toString line ++ ", column " ++ toString column
  | .unreadable cause => cause.message
  | .reported text => text

/-- Why a line of a file has no text. -/
inductive LineFault where
  | beforeFirst
  | unreadable (cause : FileFault)
  | pastEnd (count : Nat)
  | undecodable (defect : Utf8.Defect)
  | reported (text : String)
  deriving DecidableEq, Repr

/-- The words for a line that could not be resolved. -/
def LineFault.message : LineFault → String
  | .beforeFirst => "line numbers start at 1"
  | .unreadable cause => cause.message
  | .pastEnd count => "file has only " ++ toString count ++ " lines"
  | .undecodable defect => "line is not valid UTF-8: " ++ defect.message
  | .reported text => text

/-- What is wrong with the bytes of a tags file. -/
inductive SectionFault where
  | noPageBreak
  | unterminatedHeader
  | headerNotText
  | noLength
  | lengthNotANumber
  | pastEnd
  deriving DecidableEq, Repr

/-- The words for malformed tags data, without the place. -/
def SectionFault.message : SectionFault → String
  | .noPageBreak => "expected page break"
  | .unterminatedHeader => "unterminated section header"
  | .headerNotText => "section header is not UTF-8"
  | .noLength => "section header has no length"
  | .lengthNotANumber => "section length is not a number"
  | .pastEnd => "section runs past end of data"

/-- Malformed tags data: a fault at a byte, or one that was reported in words. -/
inductive Malformed where
  | atByte (fault : SectionFault) (position : Nat)
  | reported (text : String)
  deriving DecidableEq, Repr

/-- The words for malformed tags data. -/
def Malformed.message : Malformed → String
  | .atByte fault position => fault.message ++ " at byte " ++ toString position
  | .reported text => text

/-- What is wrong with a configuration. -/
inductive ConfigFault where
  | line (number : Nat)
  | value (key : String)
  | reported (text : String)
  deriving DecidableEq, Repr

/-- The words for a configuration that could not be used. -/
def ConfigFault.message : ConfigFault → String
  | .line number => "TOML parse error at line " ++ toString number
  | .value key => "TOML parse error at key " ++ key
  | .reported text => text

/-- A fault of a run. -/
inductive Fault where
  | parse (path : String) (cause : ParseFault)
  | line (path : String) (number : Nat) (cause : LineFault)
  | destinationExists (path : Path)
  | malformed (cause : Malformed)
  | config (cause : ConfigFault)
  | file (cause : FileFault)
  deriving DecidableEq, Repr

/-- The words for a fault. -/
def Fault.message : Fault → String
  | .parse path cause => "Parse error in " ++ path ++ ": " ++ cause.message
  | .line path number cause =>
      "Cannot resolve line " ++ toString number ++ " of " ++ path ++ ": " ++ cause.message
  | .destinationExists path => "Destination already exists: " ++ Path.display path
  | .malformed cause => "Malformed tags data: " ++ cause.message
  | .config cause => "Configuration error: " ++ cause.message
  | .file cause => "IO error: " ++ cause.message

/-- Whether a fault is one of parsing. -/
def Fault.isParse : Fault → Bool
  | .parse _ _ => true
  | _ => false

/-- The fault that a fault is a consequence of, in words. -/
def Fault.cause? : Fault → Option String
  | .file cause => some cause.message
  | _ => none

end Defs

end GoTags
