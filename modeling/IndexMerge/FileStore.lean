import IndexMerge.Bytes.Source
import IndexMerge.Path

/-!
# File stores

The files that a command works on, as a value: places, each with the bytes of a file or with a
directory. A path is followed name by name, and whatever stands in its way is reported.
-/

namespace IndexMerge

/-- What a path can name. -/
inductive FileNode where
  | file (bytes : Array UInt8)
  | directory
  deriving DecidableEq, Repr

/-- Files and directories besides those directories that are always there. -/
structure FileStore where
  nodes : List (Place × FileNode)
  deriving Repr

namespace FileStore

/-- A store without files. -/
def empty : FileStore := ⟨[]⟩

/-- What lies at a place. -/
def node? (store : FileStore) (place : Place) : Option FileNode :=
  if place.isGiven then some .directory
  else (store.nodes.find? fun (found, _) => found == place).map (·.2)

/-- What names lead to from a place, of which is known what lies there. Every name has to be that
of something in a directory. -/
def walk (store : FileStore) (place : Place) (node : FileNode) :
    List String → Except IoFault FileNode
  | [] => .ok node
  | name :: names =>
    match node with
    | .file _ => .error .notADirectory
    | .directory =>
      if Path.maxNameLength < name.utf8ByteSize then .error .nameTooLong
      else match store.node? (place.enter name) with
        | none => .error .noSuchFile
        | some node => store.walk (place.enter name) node names

/-- What a path names. -/
def find (store : FileStore) (path : String) : Except IoFault FileNode := do
  Path.check path
  store.walk (Path.start path) .directory (Path.names path)

/-- Puts something at a place, instead of what was there. -/
def putAt (store : FileStore) (place : Place) (node : FileNode) : FileStore :=
  ⟨(place, node) :: store.nodes.filter fun (found, _) => found != place⟩

/-- Puts something where a path leads. -/
def put (store : FileStore) (path : String) (node : FileNode) : FileStore :=
  store.putAt (Path.place path) node

/-- Makes the directory that a path names, and all on the way to it. -/
def putDirectories (store : FileStore) (path : String) : FileStore :=
  ((Path.names path).foldl (fun (store, place) name =>
    (store.putAt (place.enter name) .directory, place.enter name)) (store, Path.start path)).1

/-- The bytes of a file. -/
def read? (store : FileStore) (path : String) : Option (Array UInt8) :=
  match store.find path with
  | .ok (.file bytes) => some bytes
  | _ => none

/-- Opens a path for reading. A directory opens, but its first read fails. -/
def openSource (store : FileStore) (path : String) : Except IoFault ByteSource :=
  match store.find path with
  | .ok (.file bytes) => .ok (.ofList bytes.toList)
  | .ok .directory => .ok ⟨[], some .isDirectory⟩
  | .error fault => .error fault

/-- Reads a whole file. -/
def readFile (store : FileStore) (path : String) : Except IoFault (Array UInt8) :=
  match store.find path with
  | .ok (.file bytes) => .ok bytes
  | .ok .directory => .error .isDirectory
  | .error fault => .error fault

/-- Creates a file, which must not be there, in a directory that is. A path without a last name,
or with one that leads back, can only name a directory that is there. One with a slash behind its
last name asks for a directory, which is not made in this way. -/
def create (store : FileStore) (path : String) : Except IoFault FileStore := do
  Path.check path
  match Path.split? path with
  | none => .error .fileExists
  | some (names, last) =>
    match ← store.walk (Path.start path) .directory names with
    | .file _ => .error .notADirectory
    | .directory =>
      if last = "." || last = ".." then .error .fileExists
      else if Path.endsInSlash path then .error .isDirectory
      else if Path.maxNameLength < last.utf8ByteSize then .error .nameTooLong
      else if (store.node? (Path.place path)).isSome then .error .fileExists
      else .ok (store.put path (.file #[]))

end FileStore

end IndexMerge
