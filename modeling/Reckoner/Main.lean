import Reckoner.CommandLine.Report

/-!
# The program

Reads the script and the standard input as far as the arguments ask for them, and writes the report.
-/

namespace Reckoner
namespace CommandLine

/-- Read a stream to its end. -/
partial def readAll (stream : IO.FS.Stream) (text : String) : IO String := do
  let line ← stream.getLine
  if line.isEmpty then return text else readAll stream (text ++ line)

/-- Read a script, unless there is none at the path. -/
def readScript? (path : String) : IO (Option String) := do
  try
    let text ← IO.FS.readFile path
    return some text
  catch _ => return none

end CommandLine
end Reckoner

open Reckoner

/-- Run the command line. -/
def main (args : List String) : IO UInt32 := do
  let options? := (CommandLine.Options.parse args).toOption
  let script? ← (options?.bind (·.file?)).bindM CommandLine.readScript?
  let input ←
    if options?.any (·.readsInput) then CommandLine.readAll (← IO.getStdin) "" else pure ""
  let report := CommandLine.report (fun _ => script?.map String.toList) input.toList args
  IO.print report.text
  return report.code.toUInt32
