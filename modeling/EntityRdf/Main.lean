import EntityRdf.CommandLine.Program

/-!
# The executable
-/

namespace EntityRdf

/-- Opens a path of the system for reading. What may not be opened is there;
every other failure means that the path leads nowhere. -/
def openFile (path : String) : IO (Except FileContent IO.FS.Handle) := do
  try
    return .ok (← IO.FS.Handle.mk path .read)
  catch
    | .permissionDenied .. => return .error .unreadable
    | _ => return .error .missing

/-- What is found at a path of the system. -/
def findFile (path : String) : IO FileContent := do
  match ← openFile path with
  | .error c => return c
  | .ok handle =>
    try
      return match String.fromUTF8? (← handle.readBinToEnd) with
        | some s => .text s
        | none => .unreadable
    catch _ => return .unreadable

/-- Writes a text to a path of the system. -/
def writeFile (path text : String) : IO Bool := do
  try
    IO.FS.writeFile path text
    return true
  catch _ => return false

/-- Runs a program on the files of the system. -/
def FileProgram.runOnSystem {α : Type} : FileProgram α → IO α
  | .done a => return a
  | .read path next => do (next (← findFile path)).runOnSystem
  | .write path text next => do (next (← writeFile path text)).runOnSystem

end EntityRdf

/-- Runs the program for the given arguments. -/
def main (args : List String) : IO UInt32 := do
  let outcome ← (EntityRdf.CommandLine.program args).runOnSystem
  IO.print outcome.output
  IO.eprint outcome.errorOutput
  return outcome.exitCode.toUInt32
