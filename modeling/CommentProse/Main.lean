import CommentProse.CommandLine.Outcome

/-! # Command line

Looks up the files that a call may need, hands them to `Invocation.outcome`, and prints what
comes of it.
-/

namespace CommentProse.CommandLine

/-- Why the machine gives no contents. -/
def faultOf : IO.Error → FileFault
  | .noFileOrDirectory .. => .notFound
  | .permissionDenied .. => .denied
  | .inappropriateType (some _) .. => .notADirectory
  | .inappropriateType none .. => .isADirectory
  | error => .other error.toString

/-- The text at a path of the machine. -/
def readText (path : Path) : IO (Except FileFault (List Char)) := do
  try
    return decodeText (← IO.FS.readBinFile (String.ofList path))
  catch error => return .error (faultOf error)

/-- Whether a path of the machine leads to a regular file. -/
def isRegular (path : Path) : IO Bool := do
  try
    return (← (System.mkFilePath [String.ofList path]).metadata).type == .file
  catch _ => return false

/-- The files of the machine, as far as a command may look at them. -/
def filesOf (named searched : List Path) : IO (FileSystem FileFault) := do
  let regular ← (named ++ searched).filterM isRegular
  let texts ← (named ++ searched.filter regular.contains).mapM fun path =>
    return (path, ← readText path)
  return ⟨regular.contains, fun path => (texts.lookup path).getD (.error .notFound)⟩

/-- The bytes of a stream up to its end, behind those that were read before. -/
partial def readToEnd (stream : IO.FS.Stream) (before : ByteArray) : IO ByteArray := do
  let bytes ← stream.read 65536
  if bytes.isEmpty then return before else readToEnd stream (before ++ bytes)

/-- The surroundings of a call, as far as it may look at them. -/
def surroundingsOf (invocation : Invocation) : IO Surroundings := do
  let directories : UserDirectories :=
    ⟨(← IO.getEnv "XDG_CONFIG_HOME").map String.toList, (← IO.getEnv "HOME").map String.toList⟩
  let workingDirectory := (← IO.currentDir).toString.toList
  match invocation with
  | .run command =>
    let files ← filesOf command.namedPaths (command.searchedPaths directories workingDirectory)
    let input ←
      if command.file.isSome then pure ByteArray.empty
      else readToEnd (← IO.getStdin) ByteArray.empty
    return ⟨files, directories, workingDirectory, input⟩
  | _ => return ⟨← filesOf [] [], directories, workingDirectory, ByteArray.empty⟩

end CommentProse.CommandLine

open CommentProse CommentProse.CommandLine in
/-- Runs the program; the exit status is 2 if the arguments make no sense. -/
def main (arguments : List String) : IO UInt32 := do
  let invocation := Invocation.ofArguments none arguments
  match invocation.outcome (← surroundingsOf invocation) with
  | .done output errors status =>
    IO.print output
    IO.eprint errors
    return status
  | .failed message =>
    IO.eprintln ("Error: " ++ message)
    return 1
  | .misused =>
    IO.eprint Invocation.helpText
    return 2
