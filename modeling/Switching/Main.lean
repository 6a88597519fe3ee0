import Switching.CommandLine.Run

/-!
# The program

Reads the named table file, runs the command line and carries out its result.
-/

namespace Switching

/-- Print a chain of errors, the outermost one first. -/
def reportErrors (errors : List String) : IO Unit :=
  errors.forM fun error => IO.eprintln ("Error: " ++ error)

/-- The contents of a file, or the reason for which it cannot be read. -/
def readContents (path : String) : IO (Except Pla.StreamFault ByteArray) :=
  try
    return .ok (← IO.FS.readBinFile path)
  catch
    | .noFileOrDirectory _ _ _ => return .error .notFound
    | error => return .error (.unavailable (toString error))

/-- Write a file, or give the reason for which it cannot be written. -/
def writeContents (path contents : String) : IO (Except Pla.StreamFault Unit) :=
  try
    IO.FS.writeFile path contents
    return .ok ()
  catch
    | .noFileOrDirectory _ _ _ => return .error .notFound
    | error => return .error (.unavailable (toString error))

/-- Carry out the result of a run. -/
def carryOut (outcome : CommandLine.Outcome) : IO UInt32 := do
  IO.print outcome.output
  let settled ← match outcome.file? with
    | none => pure outcome
    | some (path, contents) => do
        match ← writeContents path contents with
        | .ok _ => pure outcome
        | .error fault => pure (outcome.refused path fault)
  reportErrors settled.errors
  return settled.code.toUInt32

end Switching

open Switching in
/-- The command line. -/
def main (arguments : List String) : IO UInt32 :=
  match CommandLine.read arguments with
  | .error _ => do
      IO.eprintln "error: invalid arguments"
      return 2
  | .ok request => do
      let contents ← match request.tablePath? with
        | some path => readContents path
        | none => pure (.error .notFound)
      carryOut (request.run contents)
