import Laconic.CommandLine.Run

/-!
# The program
-/

namespace Laconic.CommandLine

/-- Why an action on a file failed. -/
def FileFault.ofError : IO.Error → FileFault
  | .noFileOrDirectory .. => .notFound
  | .inappropriateType _ 20 _ => .notDirectory
  | .inappropriateType _ 21 _ => .isDirectory
  | e => .other e.toString

def attempt {α : Type} (action : IO α) : IO (Except FileFault α) := do
  try
    return .ok (← action)
  catch e =>
    return .error (.ofError e)

partial def readAll (stream : IO.FS.Stream) (text : String) : IO String := do
  let line ← stream.getLine
  if line.isEmpty then return text else readAll stream (text ++ line)

/-- The machine that the program runs on. -/
def machine : Host IO where
  read path := attempt (IO.FS.readFile path)
  has path := do
    match ← attempt (IO.FS.readFile path) with
    | .error .notFound | .error .notDirectory => return false
    | _ => return true
  write path text := attempt (IO.FS.writeFile path text)
  input := attempt do readAll (← IO.getStdin) ""

end Laconic.CommandLine

/-- Runs the command and leaves with its status. -/
def main (arguments : List String) : IO UInt32 := do
  let outcome ← Laconic.CommandLine.run Laconic.CommandLine.machine arguments
  IO.print outcome.output
  IO.eprint outcome.errors
  return outcome.status.toUInt32
