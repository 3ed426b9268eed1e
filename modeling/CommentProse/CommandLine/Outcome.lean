import CommentProse.CommandLine.Arguments
import CommentProse.Report.Listing
import CommentProse.Settings.Reader
import CommentProse.Settings.Search

/-! # What the program does

`Command.run` works out everything that a call prints, and with which exit status it ends, from the
files, the user's directories and the standard input. Settings are read before the input, and
nothing is printed if either cannot be read.
-/

namespace CommentProse

/-- What a call can see of its surroundings. -/
structure Surroundings where
  files : FileSystem FileFault
  directories : UserDirectories
  /-- The directory that the program was started in. -/
  workingDirectory : Path
  /-- The bytes of the standard input. -/
  input : ByteArray

/-- What a call comes to. -/
inductive Outcome where
  /-- The program ran and printed this. -/
  | done (output errors : String) (status : UInt32)
  /-- The settings or the input could not be read. -/
  | failed (message : String)
  | misused

/-- Lines of text, each with its line feed. -/
def unlines (lines : List String) : String :=
  String.join (lines.map (· ++ "\n"))

namespace Command

/-- The directory in which the search for settings begins. -/
def searchStart (command : Command) (workingDirectory : Path) : Path :=
  match command.file with
  | some file => file.parent?.getD ['.']
  | none => workingDirectory

/-- The name of the input in listings. -/
def inputName (command : Command) : String :=
  match command.file with
  | some file => String.ofList file
  | none => "<stdin>"

/-- The text of the input. -/
def readInput (command : Command) (surroundings : Surroundings) : Except FileFault (List Char) :=
  match command.file with
  | some file => surroundings.files.read file
  | none => decodeText surroundings.input

/-- What the command prints about the comments of a source. -/
def listing (command : Command) (source : List Char) (comments : List FoundComment) :
    List String :=
  let table := LineTable.ofText source
  match command.task with
  | .extract =>
    let passages := passagesIn comments
    if command.json then [Json.encodeRecords (passages.map (·.record table))]
    else passages.map (·.listing command.inputName table)
  | .spans => comments.flatMap (·.spanListing table)
  | .parse =>
    comments.flatMap fun found => (found.analysis?.map Analysis.treeListing).getD []

/-- What the command prints about a source, and the exit status. -/
def report (command : Command) (settings : Settings) (source : List Char) : Outcome :=
  let comments := FoundComment.all settings source
  let issues := issuesOf source comments
  .done (unlines (command.listing source comments))
    (unlines (Issue.listingAll command.inputName issues))
    (if command.check && !issues.isEmpty then 1 else 0)

/-- The paths that are read whatever they lead to. -/
def namedPaths (command : Command) : List Path := command.file.toList ++ command.settings.toList

/-- The paths that are read if they lead to regular files. -/
def searchedPaths (command : Command) (directories : UserDirectories) (workingDirectory : Path) :
    List Path :=
  Settings.localPaths (command.searchStart workingDirectory) ++ Settings.userPaths directories

/-- Carries out a command. -/
def run (command : Command) (surroundings : Surroundings) : Outcome :=
  let found := Settings.load surroundings.files Settings.parse surroundings.directories
    command.settings (command.searchStart surroundings.workingDirectory)
  match found with
  | .error fault => .failed fault.message
  | .ok found =>
    match command.readInput surroundings with
    | .error fault => .failed fault.message
    | .ok source => command.report found.settings source

end Command

namespace Invocation

def versionText : String := "docprose 0.3.0\n"

def helpText : String :=
  unlines
    ["Extracts prose from documentation comments", "",
      "Usage: docprose [--config <PATH>] extract [FILE] [--json] [--check]",
      "       docprose [--config <PATH>] spans [FILE]",
      "       docprose [--config <PATH>] parse [FILE]", "",
      "Without FILE the standard input is read."]

/-- What comes of a call with these arguments. -/
def outcome (invocation : Invocation) (surroundings : Surroundings) : Outcome :=
  match invocation with
  | .run command => command.run surroundings
  | .help => .done helpText "" 0
  | .version => .done versionText "" 0
  | .misuse => .misused

end Invocation

end CommentProse
