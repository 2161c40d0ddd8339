/-
# The program

The command line on the files of the machine.
-/

import WorkflowGraph.CommandLine

namespace WorkflowGraph.Program

/-- A failure of the machine in the words that the tool prints. A folder can be opened for
reading, but not read. -/
def describe (reading : Bool) (e : IO.Error) : FileError :=
  match e with
  | .noFileOrDirectory .. => .notFound
  | .inappropriateType _ code _ => if code = 21 then .isADirectory reading else .notADirectory
  | .invalidArgument _ code _ =>
    if code = 36 then .nameTooLong else ⟨false, toString e⟩
  | .resourceExhausted _ code _ => if code = 28 then .noSpaceLeft else ⟨false, toString e⟩
  | e => ⟨false, toString e⟩

/-- The files of the machine as a store. -/
def store : FileStore IO where
  read path := do
    try
      let bytes ← IO.FS.readBinFile path
      return .ok bytes.toList
    catch e => return .error (describe true e)
  write path bytes := do
    try
      IO.FS.withFile path .write fun file => do
        file.write ⟨bytes.toArray⟩
        file.flush
      return .ok ()
    catch e => return .error (describe false e)

end WorkflowGraph.Program

open WorkflowGraph in
/-- Runs the tool, prints what it has to say and ends with its exit code. -/
def main (arguments : List String) : IO UInt32 := do
  let begun ← IO.monoMsNow
  let outcome ← CommandLine.run Program.store arguments
  IO.print outcome.stdout
  IO.eprint outcome.stderr
  if outcome.timed then
    let ended ← IO.monoMsNow
    IO.eprintln ("Total Conversion:     " ++ toString (ended - begun) ++ "ms")
  return UInt32.ofNat outcome.code
