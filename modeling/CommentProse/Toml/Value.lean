/-! # TOML values

A value as far as settings need it: of numbers and moments only the fact that they are well formed
is kept. A table remembers how it came about, because that decides whether it may be extended later
in the document.
-/

namespace CommentProse.Toml

/-- How a table came about. -/
inductive TableOrigin where
  /-- Written between braces; it is complete. -/
  | inline
  /-- Named by a header of its own. -/
  | header
  /-- Passed through by the header of another table. -/
  | implied
  /-- Passed through by a dotted key. -/
  | dotted
deriving DecidableEq, Repr

inductive Value where
  | string (text : String)
  | boolean (value : Bool)
  | number
  /-- A date, a time or both. -/
  | moment
  | array (items : List Value)
  | table (origin : TableOrigin) (entries : List (String × Value))
  /-- An array of tables, each with its own header; the last of them may still grow. -/
  | tables (earlier : List (List (String × Value))) (last : List (String × Value))

/-- The entries of a table. -/
abbrev Entries := List (String × Value)

/-- The names of the tables on the way to a value, and of the value itself. -/
abbrev KeyPath := List String

namespace Entries

/-- Puts a value in the place of an entry, or behind the others if there is none. -/
def set (key : String) (value : Value) : Entries → Entries
  | [] => [(key, value)]
  | (name, old) :: entries =>
    if name = key then (key, value) :: entries else (name, old) :: set key value entries

/-- Adds a value under a dotted key. A key is never given twice, and a dotted key neither opens up
a finished value nor adds to a table that headers made; it may pass through a table that headers
only passed through. -/
def assign? (value : Value) : KeyPath → Entries → Option Entries
  | [], _ => none
  | [key], entries =>
    match entries.lookup key with
    | none => some (set key value entries)
    | some _ => none
  | key :: path, entries =>
    match entries.lookup key with
    | none => (assign? value path []).map fun inner => set key (.table .dotted inner) entries
    | some (.table .dotted inner) =>
      (assign? value path inner).map fun inner => set key (.table .dotted inner) entries
    | some (.table .implied inner) =>
      if path.length = 1 then none
      else (assign? value path inner).map fun inner => set key (.table .implied inner) entries
    | some _ => none

/-- Changes the table that headers reach by a path. Tables on the way are made up if they are
missing, and of an array of tables the last one is taken. -/
def update? (change : Entries → Option Entries) : KeyPath → Entries → Option Entries
  | [], entries => change entries
  | key :: path, entries =>
    match entries.lookup key with
    | none => (update? change path []).map fun inner => set key (.table .implied inner) entries
    | some (.table .inline _) => none
    | some (.table origin inner) =>
      (update? change path inner).map fun inner => set key (.table origin inner) entries
    | some (.tables earlier last) =>
      (update? change path last).map fun last => set key (.tables earlier last) entries
    | some _ => none

/-- Gives a table its header. Only a table that was passed through before can still get one. -/
def openTable? (key : String) (entries : Entries) : Option Entries :=
  match entries.lookup key with
  | none => some (set key (.table .header []) entries)
  | some (.table .implied inner) => some (set key (.table .header inner) entries)
  | some _ => none

/-- Begins the next table of an array of tables. -/
def appendTable? (key : String) (entries : Entries) : Option Entries :=
  match entries.lookup key with
  | none => some (set key (.tables [] []) entries)
  | some (.tables earlier last) => some (set key (.tables (earlier ++ [last]) []) entries)
  | some _ => none

/-- Applies a change to the last table of a path, inside the tables before it. -/
def header? (change : String → Entries → Option Entries) (path : KeyPath) (entries : Entries) :
    Option Entries :=
  match path.getLast? with
  | none => none
  | some key => update? (change key) path.dropLast entries

end Entries

end CommentProse.Toml
