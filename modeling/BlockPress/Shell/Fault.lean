import BlockPress.Failure
import BlockPress.Shell.FileSystem

/-!
# Faults of a command

A command ends with a fault of its own, of a file, or of the stream in a file.
-/

namespace BlockPress.Shell

/-- Why a command failed. -/
inductive Fault where
  /-- There is something at the output path, and it may not be overwritten. -/
  | alreadyExists (path : String)
  /-- A file cannot be used. -/
  | file (fault : FileFault)
  /-- The stream in a file is not sound, or cannot be one. -/
  | stream (failure : Failure)
deriving DecidableEq, Repr

/-- The text of a fault. -/
def Fault.message : Fault → String
  | alreadyExists path => path ++ " already exists (use --force to overwrite)"
  | file fault => fault.message
  | stream failure => failure.message

end BlockPress.Shell
