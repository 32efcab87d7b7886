import ThemeColor.Command.Run

/-!
# The command line program

Runs the program on the files and the standard streams of the process.
-/

namespace ThemeColor.Main

open ThemeColor.Command

/-- The explanation of a failure. -/
def explain : IO.Error → String
  | .noFileOrDirectory _ _ _ => FileError.missing.message
  | .inappropriateType _ code details => details ++ " (os error " ++ toString code ++ ")"
  | .permissionDenied _ code details => details ++ " (os error " ++ toString code ++ ")"
  | e => toString e

/-- Runs an action and explains its failure. -/
def attempt {α : Type} (action : IO α) : IO (Except String α) := do
  match ← action.toBaseIO with
  | .ok a => pure (.ok a)
  | .error e => pure (.error (explain e))

/-- Text from its bytes. -/
def decode (bytes : ByteArray) : Except String String :=
  match String.fromUTF8? bytes with
  | some text => .ok text
  | none => .error "stream did not contain valid UTF-8"

/-- Reads a stream to its end. -/
partial def readAll (stream : IO.FS.Stream) (read : ByteArray) : IO ByteArray := do
  let more ← stream.read 65536
  if more.isEmpty then pure read else readAll stream (read ++ more)

/-- The operations on the process. -/
def host : Host IO where
  readInput := do
    let stdin ← IO.getStdin
    pure ((← attempt (readAll stdin ByteArray.empty)).bind decode)
  readFile path := do
    pure ((← attempt (IO.FS.readBinFile path)).bind decode)
  writeFile path content := attempt (IO.FS.writeFile path content)
  print text := do
    let stdout ← IO.getStdout
    stdout.putStr text
    stdout.flush
  printError text := do
    let stderr ← IO.getStderr
    stderr.putStr text

end ThemeColor.Main

/-- The program. -/
def main (args : List String) : IO UInt32 := ThemeColor.Command.run ThemeColor.Main.host args
