import Reckoner.CommandLine.Report

/-! The command: it reads its arguments and, where it needs them, the bytes of standard input, and prints
    what they come to. -/

namespace Reckoner.CommandLine

/-- The bytes in `read` and all that `stream` still has. -/
partial def readAll (stream : IO.FS.Stream) (read : ByteArray) : IO ByteArray := do
  let chunk ← stream.read 65536
  if chunk.isEmpty then return read else readAll stream (read ++ chunk)

/-- Prints what the arguments ask for; the result is the exit code. -/
def serve (arguments : List String) : IO UInt32 := do
  let reads := match parse arguments with
    | .error _ => false
    | .ok request => request.readsStdin
  let stdin ← if reads then readAll (← IO.getStdin) .empty else pure .empty
  let output := run arguments stdin.toList
  (← IO.getStdout).putStr output.stdout
  (← IO.getStderr).putStr output.stderr
  return UInt32.ofNat output.exit

end Reckoner.CommandLine

def main (arguments : List String) : IO UInt32 := Reckoner.CommandLine.serve arguments
