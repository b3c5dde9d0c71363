import MarkupActions.CommandLine.Session

/-!
# The program

Reads the arguments and answers them, with the files, variables and input of the machine.
-/

namespace MarkupActions.CommandLine

/-- All that a stream still gives. -/
partial def readAll (stream : IO.FS.Stream) (read : ByteArray) : IO ByteArray := do
  let chunk ← stream.read 65536
  if chunk.isEmpty then pure read else readAll stream (read ++ chunk)

def machine : World IO where
  content? name := do
    try
      some <$> IO.FS.readBinFile name
    catch _ => pure none
  lookup? name := IO.getEnv name
  input := do readAll (← IO.getStdin) ByteArray.empty

end MarkupActions.CommandLine

def main (arguments : List String) : IO UInt32 := do
  let ending ← MarkupActions.CommandLine.session MarkupActions.CommandLine.machine arguments
  match MarkupActions.CommandLine.read arguments with
  | .error error => IO.eprintln error.message
  | .ok _ => pure ()
  IO.print ending.output
  pure ending.code
