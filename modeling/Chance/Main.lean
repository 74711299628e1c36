import Chance.CommandLine

/-!
# The program

Reads the files that the arguments name, asks `CommandLine.call` what to do, and does it.
-/

namespace Chance
namespace CommandLine

def readPaths (arguments : List String) : List String :=
  match Request.parse arguments with
  | .ok (.run invocation) => invocation.config.toList ++ [invocation.input]
  | _ => []

/-- what stands in a file of the system -/
def readContent (path : String) : IO (Except FileFault String) := do
  try
    return textOf (← IO.FS.readBinFile path)
  catch
    | .noFileOrDirectory .. => return .error .missing
    | e => return .error (.other (toString e))

/-- do what a report says, and return the status -/
def Report.perform (report : Report) : IO UInt32 := do
  for line in report.diagnostics do
    IO.eprintln line
  match report.written with
  | some (path, text) =>
    try
      IO.FS.writeFile path text
      return report.status
    catch e =>
      IO.eprintln ("Error: " ++ toString e)
      return failureStatus
  | none =>
    IO.print report.output
    return report.status

end CommandLine
end Chance

open Chance Chance.CommandLine in
def main (arguments : List String) : IO UInt32 := do
  let contents ← (readPaths arguments).mapM fun path => do return (path, ← readContent path)
  let files : Files :=
    { content := fun path => (contents.lookup path).getD (.error .missing)
      writable := fun _ => true }
  let bytes ← IO.getRandomBytes 32
  (call Law.cumulative arguments files (ChaCha.ofBytes bytes.toList)).perform
