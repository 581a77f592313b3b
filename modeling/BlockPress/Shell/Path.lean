/-!
# Paths

A path is a text of names with slashes between them.  The file that a frame is packed into or
unpacked into is named after the file it is made from: packing adds the extension of frames, and
unpacking takes it off or, where there is none, adds another one.
-/

namespace BlockPress.Shell.Path

/-- The extension of files that hold a frame. -/
def packedExtension : List Char := ".obsc".toList

/-- The extension of an unpacked file that would otherwise be named like its frame. -/
def unpackedExtension : List Char := ".out".toList

/-- The path of the frame of a file. -/
def packed (path : String) : String := String.ofList (path.toList ++ packedExtension)

/-- A reversed path without slashes, and slashes with a dot, at its end. -/
def dropEnd : List Char → List Char
  | '/' :: rest => dropEnd rest
  | '.' :: '/' :: rest => dropEnd rest
  | rest => rest

/-- The rest of a list behind another one that it starts with. -/
def behind? : List Char → List Char → Option (List Char)
  | [], rest => some rest
  | c :: cs, d :: ds => if c = d then behind? cs ds else none
  | _ :: _, [] => none

/-- Whether the last name of a reversed path is a dot alone. -/
def endsInDot : List Char → Bool
  | ['.'] | '.' :: '/' :: _ => true
  | _ => false

/-- The path without the extension of frames, if its last name has that extension and more.  Slashes at
the end go with the extension.  Where it ends the path and only a dot would be left of the name, the
dot of the extension stays, so the path leads to the directory above. -/
def withoutExtension? (path : String) : Option String :=
  let reversed := path.toList.reverse
  let trimmed := dropEnd reversed
  match behind? packedExtension.reverse trimmed with
  | none | some [] | some ('/' :: _) => none
  | some rest =>
    let stem := String.ofList rest.reverse
    if endsInDot rest ∧ trimmed = reversed then some (stem ++ ".") else some stem

/-- The path of the file that a frame is unpacked into. -/
def unpacked (path : String) : String :=
  match withoutExtension? path with
  | some stem => stem
  | none => String.ofList (path.toList ++ unpackedExtension)

/-! ## Names -/

/-- The texts between slashes. -/
def split : List Char → List (List Char)
  | [] => [[]]
  | c :: rest =>
    if c = '/' then [] :: split rest
    else
      match split rest with
      | [] => [[c]]
      | name :: names => (c :: name) :: names

/-- The names of a path from the first to the last. -/
def names (path : String) : List String :=
  ((split path.toList).filter (· ≠ [])).map String.ofList

/-- Whether a path leads away from the root. -/
def startsAtRoot (path : String) : Bool := path.toList.head? = some '/'

/-- The greatest number of bytes in a path. -/
def maxBytes : Nat := 4095

/-- The greatest number of bytes in a name. -/
def maxNameBytes : Nat := 255

/-- Whether a path has more bytes than any path may have. -/
def isTooLong (path : String) : Bool := maxBytes < path.utf8ByteSize

/-- Whether a path ends in a slash, and so can only lead to a directory. -/
def endsInSlash (path : String) : Bool := path.toList.getLast? = some '/'

end BlockPress.Shell.Path
