import BlockPress.Shell.Arguments
import BlockPress.Shell.Command

/-!
# Runs

One run of the program: the words of the command line and the file system go in; the exit code, what
is printed, and the file system afterwards come out.

| exit code | meaning |
|---|---|
| 0 | the command has done its work, or help or the version was asked for |
| 1 | the command failed |
| 2 | the command line was refused |
-/

namespace BlockPress.Shell

/-- What is left of a run. -/
structure Outcome where
  /-- The exit code. -/
  exit : UInt8
  /-- The text on standard output. -/
  output : String := ""
  /-- The text on standard error. -/
  errors : String := ""
deriving DecidableEq, Repr

/-- The name and version of the program. -/
def versionText : String := "oxibsc 0.1.0\n"

/-- The forms of a command line. -/
def usageText : String := "\n".intercalate [
  "Usage: oxibsc [-v] COMMAND",
  "",
  "Commands:",
  "  compress, c    compress a file",
  "                   -o, --output PATH       where to write (INPUT.obsc)",
  "                   -b, --block-size KIB    block size in KiB (1024)",
  "                   --no-checksum           leave out the checksums of blocks",
  "                   -f, --force             overwrite the output",
  "                   --no-progress           hide the progress bar",
  "  decompress, d  decompress a file",
  "                   -o, --output PATH       where to write (INPUT without .obsc)",
  "                   -f, --force             overwrite the output",
  "                   --no-progress           hide the progress bar",
  "  test, t        decode a file and verify it",
  "  info, i        show the header of a file and its sizes",
  "                   -j, --json              answer as JSON",
  "",
  "Options:",
  "  -v, --verbose  tell more",
  "  -h, --help     show this help",
  "  -V, --version  show the version",
  ""]

/-- The outcome of a command line without a request. -/
def Stop.outcome : Stop → Outcome
  | help => { exit := 0, output := usageText }
  | version => { exit := 0, output := versionText }
  | refused fault =>
    { exit := 2, errors := "error: " ++ fault.message ++ "\n\n" ++ usageText }

variable [BlockHash]

/-- Runs a request. -/
def runRequest (request : Request) (files : FileSystem) : Outcome × FileSystem :=
  match perform request { files } with
  | .ok () s => ({ exit := 0, output := s.printed }, s.files)
  | .error fault s =>
    ({ exit := 1, output := s.printed, errors := "Error: " ++ fault.message ++ "\n" }, s.files)

/-- Runs the program. -/
def run (words : List String) (files : FileSystem) : Outcome × FileSystem :=
  match Request.ofWords words with
  | .ok request => runRequest request files
  | .error stop => (stop.outcome, files)

end BlockPress.Shell
