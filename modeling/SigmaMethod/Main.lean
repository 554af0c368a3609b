import SigmaMethod.CommandLine.Run

/-!
# The program

Reads the files that the arguments name, and prints what the run gives.
-/

namespace SigmaMethod.CommandLine

def readFile? (file : String) : IO (Option ByteArray) := do
  try return some (← IO.FS.readBinFile file)
  catch _ => return none

def program (words : List String) : IO UInt32 := do
  let names := match Invocation.ofArguments words with
    | .ok i => i.files
    | .error _ => []
  let contents ← names.mapM fun file => return (file, ← readFile? file)
  let (ending, printed) := run (fun file => (contents.lookup file).join) words
  printed.log.forM IO.eprintln
  IO.print printed.report
  match ending with
  | .ok () => return 0
  | .error fault =>
    if fault.exitCode = 0 then IO.println fault.context
    else do
      IO.eprintln s!"Error: {fault.context}"
      fault.refusal?.forM fun r => IO.eprintln s!"  {r.message}"
    return fault.exitCode.toUInt32

end SigmaMethod.CommandLine

def main (words : List String) : IO UInt32 := SigmaMethod.CommandLine.program words
