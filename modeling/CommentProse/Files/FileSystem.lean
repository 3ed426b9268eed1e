import CommentProse.Files.Path

/-! # Files as the program sees them

Two things are asked of a path: whether it leads to a regular file, and what text is read there.
Neither follows from the other. A pipe can be read and is no regular file, and a regular file may
not be readable. `FileFault` names what can be wrong with files in memory and on the machine.
-/

namespace CommentProse

/-- Files, of which reading can go wrong for such reasons. -/
structure FileSystem (Fault : Type) where
  /-- Whether a path leads to a regular file. -/
  isFile : Path → Bool
  /-- The text that is read at a path. -/
  read : Path → Except Fault (List Char)

/-- Two file systems say the same of a path. -/
def FileSystem.AgreeAt {Fault : Type} (files other : FileSystem Fault) (path : Path) : Prop :=
  other.isFile path = files.isFile path ∧ other.read path = files.read path

/-- Why no text is read at a path. -/
inductive FileFault where
  | notFound
  | notADirectory
  | isADirectory
  | denied
  /-- The contents are not UTF-8. -/
  | notText
  | other (description : String)
deriving DecidableEq, Repr

namespace FileFault

def message : FileFault → String
  | .notFound => "no such file or directory"
  | .notADirectory => "not a directory"
  | .isADirectory => "is a directory"
  | .denied => "permission denied"
  | .notText => "stream did not contain valid UTF-8"
  | .other description => description

end FileFault

/-- The text that bytes encode. -/
def decodeText (contents : ByteArray) : Except FileFault (List Char) :=
  match String.fromUTF8? contents with
  | some text => .ok text.toList
  | none => .error .notText

end CommentProse
