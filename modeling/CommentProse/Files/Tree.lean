import CommentProse.Files.FileSystem

/-! # Directory trees in memory

A tree of files and directories below a working directory. Paths are looked up component by
component, so each component but the last must lead to a directory. What lies outside the tree is
taken to be empty directories.
-/

namespace CommentProse

/-- The names on the way from the working directory. -/
abbrev Location := List (List Char)

/-- What stands at a place of a tree. -/
inductive FileStatus where
  | file (contents : ByteArray)
  | directory
  /-- Nothing has this name. -/
  | missing
  /-- Something on the way is no directory. -/
  | blocked

namespace FileStatus

def isFile : FileStatus → Bool
  | .file _ => true
  | _ => false

def read : FileStatus → Except FileFault (List Char)
  | .file contents => decodeText contents
  | .directory => .error .isADirectory
  | .missing => .error .notFound
  | .blocked => .error .notADirectory

end FileStatus

/-- Files and directories below a working directory. -/
structure FileTree where
  files : List (Location × ByteArray)
  /-- Directories; those that hold a file need not be listed. -/
  directories : List Location

namespace FileTree

/-- The parts of a path between its slashes. -/
def components : Path → List (List Char)
  | [] => [[]]
  | c :: path =>
    if c = '/' then [] :: components path
    else
      match components path with
      | [] => [[c]]
      | first :: rest => (c :: first) :: rest

/-- The location that a path without `.` and `..` names. -/
def locate (path : Path) : Location := (components path).filter (!·.isEmpty)

def ofFiles (files : List (Path × ByteArray)) (directories : List Path) : FileTree :=
  ⟨files.map fun (path, contents) => (locate path, contents), directories.map locate⟩

/-- What stands at a location. -/
def statusAt (tree : FileTree) (location : Location) : FileStatus :=
  match tree.files.lookup location with
  | some contents => .file contents
  | none =>
    if location.isEmpty || tree.files.any (location.isPrefixOf ·.1) ||
      tree.directories.any (location.isPrefixOf ·) then .directory
    else .missing

/-- Whether a component stays in its directory. -/
def isIdle (component : List Char) : Bool := component.isEmpty || component == ['.']

/-- What is reached by leaving the tree and following these components. -/
def outside (components : List (List Char)) : FileStatus :=
  if components.all fun component => isIdle component || component == ['.', '.'] then .directory
  else .missing

/-- What is reached from a location by following these components. -/
def walk (tree : FileTree) (location : Location) : List (List Char) → FileStatus
  | [] => tree.statusAt location
  | component :: components =>
    match tree.statusAt location with
    | .directory =>
      if isIdle component then tree.walk location components
      else if component = ['.', '.'] then
        if location.isEmpty then outside components else tree.walk location.dropLast components
      else tree.walk (location ++ [component]) components
    | .missing => .missing
    | _ => .blocked

/-- What a path leads to, seen from the working directory. -/
def lookUp (tree : FileTree) (path : Path) : FileStatus :=
  match path with
  | [] => .missing
  | '/' :: path => outside (components path)
  | path => tree.walk [] (components path)

/-- The files of a tree. -/
def fileSystem (tree : FileTree) : FileSystem FileFault where
  isFile path := (tree.lookUp path).isFile
  read path := (tree.lookUp path).read

end FileTree

end CommentProse
