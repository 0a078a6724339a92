/-
The command line itself: read the file, run the session, print.
-/
import Codegen.CommandLine.Session

namespace Codegen.CommandLine

/-- The bytes of a file, or `none` if it cannot be read. -/
def readInput (path : String) : IO (Option (List UInt8)) := do
  try
    let data ← IO.FS.readBinFile path
    return some data.toList
  catch _ => return none

/-- Run a session on real files and print what it says. -/
def perform (args : List String) : IO UInt32 := do
  let path? := (Options.parse args).toOption.bind Options.path?
  let data? ←
    match path? with
    | some path => readInput path
    | none => pure none
  let session := Session.run args fun _ => data?
  for entry in session.journal do
    IO.eprintln entry.line
  IO.print session.outcome.output
  IO.eprint (session.outcome.complaint "codegen")
  return UInt32.ofNat session.outcome.code

end Codegen.CommandLine

def main (args : List String) : IO UInt32 := Codegen.CommandLine.perform args
