import FlatSelect.CommandLine

/-!
# Normalize a query and print it

Files are read and the result is written here; all else is `CommandLine.run`.
-/

namespace FlatSelect

namespace CommandLine

/-- The text of a file, if there is such a file. -/
def contents (path : String) : IO (Option String) := do
  try
    return some (← IO.FS.readFile path)
  catch _ =>
    return none

/-- A failure as it is reported, with the name of the file at fault. -/
def report (a : Arguments) : Failure → String
  | .unreadable .query => a.query.getD ""
  | .unreadable (.view index) => a.views.getD index ""
  | .error cause => cause.message

/-- How the program is called. -/
def usage : String :=
  "usage: flatselect --tree FILE [--view FILE]... [--config FILE] [--emit sql|tree|json]"

/-- Reads the files that are asked for and prints what a run makes of them. -/
def execute (a : Arguments) : IO UInt32 := do
  let settings ← a.settings.mapM contents
  let query ← match a.query with
    | some path => contents path
    | none => pure none
  let views ← a.views.mapM contents
  match run { query, views, settings, emit := a.emit } with
  | .ok text =>
    IO.println text
    return 0
  | .error failure =>
    IO.eprintln ("error: " ++ report a failure)
    return 2

end CommandLine

end FlatSelect

open FlatSelect.CommandLine in
/-- The program. -/
def main (args : List String) : IO UInt32 :=
  match Arguments.none.parse? args with
  | some a => execute a
  | none => do
    IO.eprintln usage
    return 2
