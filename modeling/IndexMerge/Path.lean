import IndexMerge.Error

/-!
# Paths

A path is the names between its slashes. It starts in the working directory or, with a slash in
front, at the root, and goes on from name to name: `..` leads up, `.` and the empty name lead
nowhere else.
-/

namespace IndexMerge

/-- Where a file or a directory lies: the names that lead to it from the working directory. In
front of them stands `..` for each step above that directory, or `/` for the root. -/
abbrev Place : Type := List String

namespace Place

/-- The working directory. -/
def here : Place := []

/-- The root of all directories. -/
def root : Place := ["/"]

/-- Whether a place is the root, the working directory or one above it. These are always there. -/
def isGiven (place : Place) : Bool := place == root || place.all (· == "..")

/-- The directory that holds a place. The root holds itself. -/
def parent (place : Place) : Place :=
  if place == root then root
  else if place.isGiven then place ++ [".."]
  else place.dropLast

/-- Where a name leads from a place. -/
def enter (place : Place) (name : String) : Place :=
  if name = "" || name = "." then place
  else if name = ".." then place.parent
  else place ++ [name]

end Place

namespace Path

/-- The most bytes that a path may have. -/
def maxLength : Nat := 4095

/-- The most bytes that a name on a path may have. -/
def maxNameLength : Nat := 255

/-- Refuses a text that is no path, whatever the files are. -/
def check (path : String) : Except IoFault Unit :=
  if path.toList.contains '\x00' then .error .nulInPath
  else if path = "" then .error .noSuchFile
  else if maxLength < path.utf8ByteSize then .error .nameTooLong
  else .ok ()

/-- The place from which a path goes on. -/
def start (path : String) : Place := if path.startsWith "/" then .root else .here

/-- The names along a path. The characters are split as a list, so that proofs can compute them. -/
def names (path : String) : List String := (path.toList.splitOn '/').map String.ofList

/-- The place to which a path leads, if all that it names on the way are directories. -/
def place (path : String) : Place := (names path).foldl .enter (start path)

/-- Whether there is a slash behind the last name of a path. -/
def endsInSlash (path : String) : Bool := (names path).getLast? == some ""

/-- The last name of a path and those before it. Slashes at the end do not count, so a path of
slashes alone has no last name. -/
def split? (path : String) : Option (List String × String) :=
  match (names path).reverse.dropWhile (· == "") with
  | [] => none
  | last :: before => some (before.reverse, last)

end Path

end IndexMerge
