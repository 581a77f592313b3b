import BlockPress.Shell.Run

/-!
# The program

The part that touches the world: it takes a snapshot of what lies on the paths of the request, runs
the request on it, and writes back the files that have changed.
-/

namespace BlockPress.Shell

/-- What is at a path, if anything is. -/
def look (path : String) : IO (Option Entry) := do
  try
    return some (.file (← IO.FS.readBinFile path))
  catch
    | .noFileOrDirectory .. => return none
    | .inappropriateType .. => return some .directory
    | fault => throw fault

/-- Adds what is on the way to a path and at its end, up to the first place where there is a file or
nothing, or can be nothing for the length of the name. -/
def lookAlong (files : FileSystem) (start : Place) : List String → IO FileSystem
  | [] => return files
  | name :: names => do
    let place := start.enter name
    if Path.maxNameBytes < name.utf8ByteSize then return files
    else if place.isGiven then lookAlong files place names
    else
      match ← look place.path with
      | none => return files
      | some .directory => lookAlong (files.makeDirectory place) place names
      | some (.file data) => return files.addFile place data

/-- Adds what lies on a path. -/
def addPath (files : FileSystem) (path : String) : IO FileSystem :=
  if Path.isTooLong path then return files
  else lookAlong files (Place.start path) (Path.names path)

/-- What lies on the paths of a command line. -/
def snapshot (words : List String) : IO FileSystem :=
  match Request.ofWords words with
  | .ok request => (request.inputPath :: request.outputPath?.toList).foldlM addPath {}
  | .error _ => return {}

/-- Writes the files that have changed. -/
def writeBack (before after : FileSystem) : IO Unit := do
  for (place, data) in after.files do
    if before.lookup? place ≠ some (.file data) then IO.FS.writeBinFile place.path data

/-- Runs the program in the world. -/
def runInWorld (words : List String) : IO UInt32 := do
  let before ← snapshot words
  let (outcome, after) := run words before
  writeBack before after
  IO.print outcome.output
  IO.eprint outcome.errors
  return outcome.exit.toUInt32

end BlockPress.Shell

/-- The program. -/
def main (words : List String) : IO UInt32 := do
  try
    BlockPress.Shell.runInWorld words
  catch fault =>
    IO.eprintln ("Error: " ++ toString fault)
    return 1
