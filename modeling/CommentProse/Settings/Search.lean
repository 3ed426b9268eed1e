import CommentProse.Files.FileSystem
import CommentProse.Settings.Basic

/-! # Finding the settings

A path that the user names is read, and its faults are reported. Otherwise the settings come from
the first settings file on the way up from where the input is, else from the first one in the
user's configuration directories, else they are the standard ones. Only the first file that exists
on either way is tried: if it has a fault, the search goes on behind that way and says nothing.

How files are read, and how settings are written in them, is left open: the search takes the files
as they are (`FileSystem`) and reads settings with a given function.
-/

namespace CommentProse

/-- Where the user keeps configuration. -/
structure UserDirectories where
  /-- The configuration directory, if one is set. -/
  configuration : Option Path
  /-- The home directory, if one is set. -/
  home : Option Path
deriving DecidableEq, Repr

/-- Settings and the file they come from, if any. -/
structure FoundSettings where
  settings : Settings
  path : Option Path
deriving DecidableEq, Repr

/-- Why a file gives no settings. -/
inductive SettingsFault (Fault Complaint : Type) where
  | unreadable (fault : Fault)
  /-- The text of this file does not give settings, for this reason. -/
  | invalid (path : Path) (complaint : Complaint)
deriving DecidableEq, Repr

namespace SettingsFault

def message (fault : SettingsFault FileFault String) : String :=
  match fault with
  | .unreadable fault => fault.message
  | .invalid path complaint => s!"invalid config {String.ofList path}: {complaint}"

end SettingsFault

namespace Settings

/-- The names of settings files, in the order in which they are looked for. -/
def fileNames : List Path := [".docprose.toml".toList, "docprose.toml".toList]

/-- The settings files that may stand on the way up from `start`. -/
def localPaths (start : Path) : List Path :=
  start.ancestors.flatMap fun directory => fileNames.map directory.join

/-- The settings files that may stand in the user's directories. -/
def userPaths (directories : UserDirectories) : List Path :=
  let below := fun (directory : Path) =>
    (directory.join "docprose".toList).join "config.toml".toList
  directories.configuration.toList.map below ++
    directories.home.toList.map fun home => below (home.join ".config".toList)

variable {Fault Complaint : Type} (files : FileSystem Fault)
  (parse : List Char → Except Complaint Settings)

/-- Reads the settings in a file. -/
def readFile (path : Path) : Except (SettingsFault Fault Complaint) FoundSettings :=
  match files.read path with
  | .error fault => .error (.unreadable fault)
  | .ok text =>
    match parse text with
    | .ok settings => .ok ⟨settings, some path⟩
    | .error complaint => .error (.invalid path complaint)

/-- The settings in the first of these paths that leads to a file. -/
def firstOf? (paths : List Path) : Option FoundSettings :=
  (paths.find? files.isFile).bind fun path => (readFile files parse path).toOption

/-- The settings for input at `start`, or those in the file that the user names. -/
def load (directories : UserDirectories) (named : Option Path) (start : Path) :
    Except (SettingsFault Fault Complaint) FoundSettings :=
  match named with
  | some path => readFile files parse path
  | none =>
    .ok <| ((firstOf? files parse (localPaths start)).or
      (firstOf? files parse (userPaths directories))).getD ⟨standard, none⟩

end Settings

end CommentProse
