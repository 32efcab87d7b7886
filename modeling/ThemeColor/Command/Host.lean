/-!
# The surroundings of the program

What the program may ask of its surroundings. A failure comes back as the text that explains it.
-/

namespace ThemeColor.Command

/-- Why a file cannot be used. -/
inductive FileError where
  /-- The file, or a folder on its path, is not there. -/
  | missing
  /-- The path leads through a file. -/
  | notFolder
  /-- The path is a folder. -/
  | isFolder
  /-- The path, or a name on it, is too long. -/
  | nameTooLong
  /-- There is no room for what is written. -/
  | noSpace
  deriving DecidableEq, Repr

/-- The explanation that the operating system gives. -/
def FileError.message : FileError → String
  | .missing => "No such file or directory (os error 2)"
  | .notFolder => "Not a directory (os error 20)"
  | .isFolder => "Is a directory (os error 21)"
  | .nameTooLong => "File name too long (os error 36)"
  | .noSpace => "No space left on device (os error 28)"

/-- The operations that the program performs on its surroundings. -/
structure Host (m : Type → Type) where
  /-- All of standard input. -/
  readInput : m (Except String String)
  /-- The content of a file. -/
  readFile : String → m (Except String String)
  /-- Replaces the content of a file. -/
  writeFile : String → String → m (Except String Unit)
  /-- Writes to standard output. -/
  print : String → m Unit
  /-- Writes to standard error. -/
  printError : String → m Unit

end ThemeColor.Command
