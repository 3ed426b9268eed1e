import CommentProse.Files.Path

/-! # Arguments

The program is called with a command, of which each reads one file or the standard input:
`extract [FILE] [--json] [--check]`, `spans [FILE]` or `parse [FILE]`. The option `--config PATH` may
stand before or behind the command, and behind it wins. No flag, option or file is given twice.
-/

namespace CommentProse

/-- What is done with the comments of the input. -/
inductive Task where
  | extract
  | spans
  | parse
deriving DecidableEq, Repr

/-- What the program is asked to do. -/
structure Command where
  task : Task
  /-- The file to read, or none for the standard input. -/
  file : Option Path
  /-- The settings file that the user names. -/
  settings : Option Path
  /-- Whether passages are printed as JSON. -/
  json : Bool
  /-- Whether issues make the program fail. -/
  check : Bool
deriving DecidableEq, Repr

/-- What the arguments say. -/
inductive Invocation where
  | run (command : Command)
  | help
  | version
  /-- The arguments make no sense. -/
  | misuse
deriving DecidableEq, Repr

namespace Invocation

/-- The text behind a mark at the start of an argument. -/
def behind? (mark argument : String) : Option (List Char) :=
  if mark.toList.isPrefixOf argument.toList then some (argument.toList.drop mark.length) else none

/-- Whether an argument is an option; a single hyphen is a file name. -/
def isOption (argument : String) : Bool :=
  argument != "-" && argument.toList.head? == some '-'

/-- Whether an argument asks for help, alone or before other short flags. -/
def asksHelp (argument : String) : Bool :=
  argument == "--help" || (behind? "-h" argument).isSome

def asksVersion (argument : String) : Bool :=
  argument == "--version" || (behind? "-V" argument).isSome

def taskOf? : String → Option Task
  | "extract" => some .extract
  | "spans" => some .spans
  | "parse" => some .parse
  | _ => none

/-- The command once a settings file is named behind it. -/
def nameSettings? (path : List Char) (named : Option Path) : Option (Option Path) :=
  if path.isEmpty || named.isSome then none else some (some path)

/-- The command once a file is named. -/
def nameFile? (argument : String) (command : Command) : Option Command :=
  if argument.isEmpty || command.file.isSome then none
  else some { command with file := some argument.toList }

/-- The command with one more flag. -/
def flag? (argument : String) (command : Command) : Option Command :=
  if command.task ≠ .extract then none
  else if argument = "--json" then if command.json then none else some { command with json := true }
  else if argument = "--check" then
    if command.check then none else some { command with check := true }
  else none

/-- Reads what stands behind `--`, where every argument is a file name. -/
def ofFiles (command : Command) : List String → Option Command
  | [] => some command
  | argument :: arguments =>
    (nameFile? argument command).bind fun command => ofFiles command arguments

/-- The settings file behind the command, or else the one before it. -/
def settle (named : Option Path) (before : Option Path) (command : Command) : Invocation :=
  .run { command with settings := named.or before }

/-- Reads the arguments behind a command. `named` is the settings file given behind the command,
`before` the one given before it. -/
def ofCommand (before : Option Path) (command : Command) (named : Option Path) :
    List String → Invocation
  | [] => settle named before command
  | argument :: arguments =>
    if argument = "--" then
      match ofFiles command arguments with
      | some command => settle named before command
      | none => .misuse
    else if asksHelp argument then .help
    else if argument = "--config" then
      match arguments with
      | [] => .misuse
      | path :: arguments =>
        if isOption path then .misuse
        else
          match nameSettings? path.toList named with
          | some named => ofCommand before command named arguments
          | none => .misuse
    else
      match behind? "--config=" argument with
      | some path =>
        match nameSettings? path named with
        | some named => ofCommand before command named arguments
        | none => .misuse
      | none =>
        let next := if isOption argument then flag? argument command else nameFile? argument command
        match next with
        | some command => ofCommand before command named arguments
        | none => .misuse

/-- Reads what stands behind the command `help`: nothing, or one command. -/
def ofHelp : List String → Invocation
  | [] => .help
  | [argument] => if (taskOf? argument).isSome || argument == "help" then .help else .misuse
  | _ => .misuse

/-- Reads the arguments; `named` is a settings file that was given before. -/
def ofArguments (named : Option Path) : List String → Invocation
  | [] => .misuse
  | argument :: arguments =>
    if asksHelp argument then .help
    else if asksVersion argument then .version
    else if argument = "help" then ofHelp arguments
    else if argument = "--config" then
      match arguments with
      | [] => .misuse
      | path :: arguments =>
        if isOption path then .misuse
        else
          match nameSettings? path.toList named with
          | some named => ofArguments named arguments
          | none => .misuse
    else
      match behind? "--config=" argument with
      | some path =>
        match nameSettings? path named with
        | some named => ofArguments named arguments
        | none => .misuse
      | none =>
        match taskOf? argument with
        | some task => ofCommand named ⟨task, none, none, false, false⟩ none arguments
        | none => .misuse

end Invocation

end CommentProse
