import GoTags.Event
import GoTags.Files.System

/-!
# Writing a tags file

**Input.** The bytes of a tags file, a destination and a policy.

**Algorithm.** The destination is opened once as the policy says, and the bytes
are written to it.

**Results.** A report, or a fault; only the file that the destination leads to
may change, and nothing does after a fault.
-/

namespace GoTags

section Defs

/-- How a tags file is written to its destination. -/
inductive WritePolicy where
  | createOnly
  | append
  | overwrite
  deriving DecidableEq, Repr

/-- The word for a policy. -/
def WritePolicy.word : WritePolicy → String
  | .createOnly => "create_only"
  | .append => "append"
  | .overwrite => "overwrite"

/-- What the way to a destination is taken for. -/
def WritePolicy.purpose : WritePolicy → Lookup.Purpose
  | .createOnly => .make
  | .append => .open
  | .overwrite => .open

/-- What a file holds after bytes were written to it. -/
def WritePolicy.result (policy : WritePolicy) (old data : Bytes) : Bytes :=
  match policy with
  | .append => old ++ data
  | .createOnly => data
  | .overwrite => data

/-- What a successful write did. -/
structure WriteReport where
  path : Path
  policy : WritePolicy
  bytesWritten : Nat
  created : Bool
  deriving DecidableEq, Repr

/-- What is noted about a successful write. -/
def WriteReport.event (r : WriteReport) : Event :=
  ⟨.info, .storage, "Wrote " ++ toString r.bytesWritten ++ " bytes to " ++ Path.display r.path ++
    " (" ++ r.policy.word ++ ")"⟩

namespace FileSystem

/-- The place and the present content of the file that a policy opens. A file
that does not exist yet is empty. -/
def openFile (fs : FileSystem) (policy : WritePolicy) (p : Path) :
    Except FileFault (Place × Bytes) :=
  match fs.spot policy.purpose p with
  | .error fault => .error fault
  | .ok (.free place) => .ok (place, [])
  | .ok (.taken place entry) =>
      match policy, entry with
      | .createOnly, _ => .error .alreadyExists
      | _, .file content => .ok (place, content)
      | _, _ => .error .isADirectory

/-- The file system after bytes were written. -/
def write (fs : FileSystem) (policy : WritePolicy) (p : Path) (data : Bytes) :
    Except FileFault FileSystem :=
  (fs.openFile policy p).map fun (place, old) => fs.put place (.file (policy.result old data))

end FileSystem

/-- The fault of a run whose destination could not be opened. -/
def WritePolicy.fault (policy : WritePolicy) (p : Path) (cause : FileFault) : Fault :=
  if policy = .createOnly ∧ cause = .alreadyExists then .destinationExists p else .file cause

/-- Writes bytes to a destination. -/
def persist (data : Bytes) (p : Path) (policy : WritePolicy) (fs : FileSystem) :
    Except Fault WriteReport × FileSystem :=
  match fs.write policy p data with
  | .error cause => (.error (policy.fault p cause), fs)
  | .ok written =>
      (.ok ⟨p, policy, data.length, !fs.pathExists p⟩, written)

end Defs

end GoTags
