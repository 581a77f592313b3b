import BlockPress.Shell.Path
import BlockPress.Standard

/-!
# File systems

What the program sees of the file system: the files and directories at places relative to its working
directory.  A path is walked name by name, and each name must be looked up in a directory
(`walk`); a path that has too many bytes is not walked at all.  Main statement: writing a file changes
what is at its place and nowhere else (`lookup?_put`).

There are files and directories and nothing else.  Links, permissions, the owners of files, full disks and
other programs at work on the same files are outside of the model: no two places are one file, whatever is
there can be read and written, and there is room for what is written.
-/

namespace BlockPress.Shell

open scoped Standard

/-- Why a file cannot be used. -/
inductive FileFault where
  /-- There is nothing at the place. -/
  | notFound
  /-- A directory is needed where a file is. -/
  | notDirectory
  /-- A file is needed where a directory is. -/
  | isDirectory
  /-- The file would grow too large. -/
  | tooLarge
  /-- A name or a path is too long. -/
  | nameTooLong
deriving DecidableEq, Repr

/-- The text of a fault, with the number that the system gives it. -/
def FileFault.message : FileFault → String
  | notFound => "No such file or directory (os error 2)"
  | notDirectory => "Not a directory (os error 20)"
  | isDirectory => "Is a directory (os error 21)"
  | tooLarge => "File too large (os error 27)"
  | nameTooLong => "File name too long (os error 36)"

/-- The names on the way from the working directory to a place, or from the root if the name of the
root comes first. -/
abbrev Place : Type := List String

namespace Place

/-- The working directory. -/
def here : Place := []

/-- The root directory. -/
def root : Place := ["/"]

/-- The place that a path leads away from. -/
def start (path : String) : Place := if Path.startsAtRoot path then root else here

/-- Whether a place is the working directory or above it. -/
def isAbove (p : Place) : Bool := p.all (· == "..")

/-- Whether a place is a directory that is always there: the working directory, one above it, or the
root. -/
def isGiven (p : Place) : Bool := p.isAbove || p == root

/-- The directory that holds a place. -/
def parent (p : Place) : Place :=
  if p = root then root else if p.isAbove then p ++ [".."] else p.dropLast

/-- The place that a name leads to. -/
def enter (p : Place) (name : String) : Place :=
  if name = "." then p else if name = ".." then p.parent else p ++ [name]

/-- The place that a path names, whether all that it leads through is there or not. -/
def ofPath (path : String) : Place := (Path.names path).foldl enter (start path)

/-- The path of a place. -/
def path : Place → String
  | [] => "."
  | "/" :: names => "/" ++ "/".intercalate names
  | names => "/".intercalate names

end Place

/-- What is at a place. -/
inductive Entry where
  /-- A file with its bytes. -/
  | file (data : ByteArray)
  /-- A directory. -/
  | directory
deriving DecidableEq

/-- The files and directories that there are. -/
structure FileSystem where
  /-- Each place with what is there. -/
  entries : List (Place × Entry) := []

namespace FileSystem

/-- What is at a place. -/
def lookup? (fs : FileSystem) (p : Place) : Option Entry :=
  if p.isGiven then some .directory else fs.entries.lookup p

/-- The file system with an entry at a place, in place of any other one. -/
def put (fs : FileSystem) (p : Place) (e : Entry) : FileSystem :=
  ⟨(p, e) :: fs.entries.filter (·.1 ≠ p)⟩

/-- Removing the entries of one place leaves what is at the others. -/
theorem lookup_filter_ne {p q : Place} (h : q ≠ p) (entries : List (Place × Entry)) :
    (entries.filter (·.1 ≠ p)).lookup q = entries.lookup q := by
  induction entries with
  | nil => rfl
  | cons x xs ih =>
    obtain ⟨r, e⟩ := x
    by_cases hr : r = p
    · subst hr
      have hqr : (q == r) = false := by simpa using h
      simpa [List.lookup_cons, hqr] using ih
    · by_cases hq : q = r
      · subst hq
        simp [hr]
      · have hqr : (q == r) = false := by simpa using hq
        simpa [List.lookup_cons, hqr, hr] using ih

/-- **Writing changes what is at one place.** -/
theorem lookup?_put (fs : FileSystem) {p : Place} (hp : p.isGiven = false) (e : Entry) (q : Place) :
    (fs.put p e).lookup? q = if q = p then some e else fs.lookup? q := by
  unfold lookup? put
  by_cases hq : q = p
  · subst hq
    simp [hp]
  · have hqp : (q == p) = false := by simpa using hq
    simp only [List.lookup_cons, hqp, lookup_filter_ne hq, hq, if_false]

/-- The files with their places. -/
def files (fs : FileSystem) : List (Place × ByteArray) :=
  fs.entries.filterMap fun
    | (p, .file data) => some (p, data)
    | (_, .directory) => none

/-- The file system with a directory at a place, if nothing is there yet. -/
def makeDirectory (fs : FileSystem) (p : Place) : FileSystem :=
  match fs.lookup? p with
  | some _ => fs
  | none => fs.put p .directory

/-- The file system with a file at a place, and with the directories on the way. -/
def addFile (fs : FileSystem) (p : Place) (data : ByteArray) : FileSystem :=
  let fs := (List.range p.length).foldl (fun fs n => fs.makeDirectory (p.take n)) fs
  fs.put p (.file data)

/-- The place behind some names, where each name must be looked up in a directory.  There may be
nothing at that place. -/
def walk (fs : FileSystem) : Place → List String → Except FileFault Place
  | p, [] => .ok p
  | p, name :: names =>
    match fs.lookup? p with
    | none => .error .notFound
    | some (.file _) => .error .notDirectory
    | some .directory =>
      if Path.maxNameBytes < name.utf8ByteSize then .error .nameTooLong else walk fs (p.enter name) names

/-- The place that a path leads to. -/
def locate (fs : FileSystem) (path : String) : Except FileFault Place :=
  if Path.isTooLong path then .error .nameTooLong
  else fs.walk (Place.start path) (Path.names path)

/-- The directory that the last name of a path is looked up in. -/
def locateParent (fs : FileSystem) (path : String) : Except FileFault Place :=
  if Path.isTooLong path then .error .nameTooLong
  else fs.walk (Place.start path) ((Path.names path).dropLast ++ ["."])

/-- Opens what a path leads to, for reading. -/
def find (fs : FileSystem) (path : String) : Except FileFault Place :=
  match fs.locate path with
  | .error fault => .error fault
  | .ok p =>
    match fs.lookup? p with
    | none => .error .notFound
    | some .directory => .ok p
    | some (.file _) => if Path.endsInSlash path then .error .notDirectory else .ok p

/-- Whether a path leads to anything. -/
def holds (fs : FileSystem) (path : String) : Bool :=
  match fs.find path with
  | .ok _ => true
  | .error _ => false

/-- The bytes at a place that was found. -/
def read (fs : FileSystem) (p : Place) : Except FileFault ByteArray :=
  match fs.lookup? p with
  | some (.file data) => .ok data
  | some .directory => .error .isDirectory
  | none => .error .notFound

/-- Opens what a path leads to, for writing: a file there loses its bytes, and where nothing is a file
comes to be.  A path that ends in a slash could only lead to a directory, so its last name is not
looked up. -/
def create (fs : FileSystem) (path : String) : Except FileFault (Place × FileSystem) :=
  if Path.endsInSlash path then
    match fs.locateParent path with
    | .error fault => .error fault
    | .ok _ => .error .isDirectory
  else
    match fs.locate path with
    | .error fault => .error fault
    | .ok p =>
      match fs.lookup? p with
      | some .directory => .error .isDirectory
      | _ => .ok (p, fs.put p (.file .empty))

end FileSystem

end BlockPress.Shell
