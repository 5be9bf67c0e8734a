import Offside.CommandLine
/-!
# The program

Reads the command line and the file, runs the program and passes on what it prints.
-/

open Offside

/-- The text of a file, if it can be read. -/
def readFile? (name : String) : IO (Option String) := do
  try
    let text ← IO.FS.readFile name
    return some text
  catch _ => return none

def main (argv : List String) : IO UInt32 := do
  match CommandLine.parse argv with
  | .error r => return r.status.toUInt32
  | .ok o =>
    let source ← readFile? o.file
    let (result, p) := (CommandLine.execute o source).run.run {}
    IO.eprint (Journal.text .plain p.journal)
    IO.print p.desk.out
    match result with
    | .ok (some n) => return (n % 256).toNat.toUInt32
    | .ok none => return 0
    | .error e =>
      IO.eprintln (e.settled.message?.getD "")
      return 1
