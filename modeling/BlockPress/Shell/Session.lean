import BlockPress.Shell.Fault

/-!
# Sessions

A command works on the file system and prints as it goes.  What it has printed and written stays when
it fails.
-/

namespace BlockPress.Shell

/-- The state of a command. -/
structure Session where
  /-- The files and directories. -/
  files : FileSystem
  /-- The text printed so far. -/
  printed : String := ""

/-- A command: work on a session that may fail. -/
abbrev Command (α : Type) : Type := EStateM Fault Session α

namespace Session

/-- Prints a line. -/
def print (line : String) : Command Unit := fun s =>
  .ok () { s with printed := s.printed ++ line ++ "\n" }

/-- Fails. -/
def fail {α : Type} (fault : Fault) : Command α := fun s => .error fault s

/-- The value, unless the stream is not sound. -/
def sound {α : Type} : Except Failure α → Command α
  | .ok a => fun s => .ok a s
  | .error failure => fail (.stream failure)

/-- Fails if a path leads to anything, unless that may be overwritten. -/
def checkFree (path : String) (force : Bool) : Command Unit := fun s =>
  if s.files.holds path && !force then .error (.alreadyExists path) s else .ok () s

/-- Opens a file or directory for reading. -/
def openInput (path : String) : Command Place := fun s =>
  match s.files.find path with
  | .ok place => .ok place s
  | .error fault => .error (.file fault) s

/-- Opens a file for writing and empties it. -/
def openOutput (path : String) : Command Place := fun s =>
  match s.files.create path with
  | .ok (place, files) => .ok place { s with files }
  | .error fault => .error (.file fault) s

/-- The bytes at a place that was opened, or the fault of reading them. -/
def content (place : Place) : Command (Except FileFault ByteArray) := fun s =>
  .ok (s.files.read place) s

/-- Fills a file that was opened for writing. -/
def fill (place : Place) (data : ByteArray) : Command Unit := fun s =>
  .ok () { s with files := s.files.put place (.file data) }

end Session

end BlockPress.Shell
