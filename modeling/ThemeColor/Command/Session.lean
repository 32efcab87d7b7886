import ThemeColor.Command.Folder

/-!
# A host in memory

A session holds standard input, a folder of files and what was printed so far. It lets the program
run without any surroundings, and so lets one reason about a run.
-/

namespace ThemeColor.Command

/-- The surroundings of a run in memory. -/
structure Session where
  /-- Standard input. -/
  input : String
  /-- The working folder. -/
  folder : Folder
  /-- Standard output so far. -/
  output : String
  /-- Standard error so far. -/
  errors : String
  deriving DecidableEq, Repr

namespace Session

/-- The session before a run. -/
def start (input : String) (files : List (String × String)) : Session :=
  ⟨input, Folder.ofFiles files, "", ""⟩

/-- The session after writing to standard output. -/
def print (s : Session) (text : String) : Session := { s with output := s.output ++ text }

/-- The session after writing to standard error. -/
def printError (s : Session) (text : String) : Session := { s with errors := s.errors ++ text }

/-- The text under a path. Devices other than standard input are empty. -/
def readFile (s : Session) (path : String) : Except FileError String := do
  match ← s.folder.openToRead path with
  | .file content => pure content
  | .device .input => pure s.input
  | _ => pure ""

/-- The session after writing to a device. -/
def writeDevice (s : Session) (text : String) : Device → Except FileError Session
  | .null | .input => .ok s
  | .full => if text = "" then .ok s else .error .noSpace
  | .output => .ok (s.print text)
  | .errors => .ok (s.printError text)

/-- The session after replacing what is under a path. -/
def writeFile (s : Session) (path text : String) : Except FileError Session := do
  let place ← s.folder.openToWrite path
  match Place.device? place with
  | some device => s.writeDevice text device
  | none => pure { s with folder := s.folder.put place text }

/-- The operations on a session. -/
def host : Host (StateM Session) where
  readInput := fun s => (.ok s.input, s)
  readFile path := fun s => ((s.readFile path).mapError FileError.message, s)
  writeFile path text := fun s =>
    match s.writeFile path text with
    | .error e => (.error e.message, s)
    | .ok after => (.ok (), after)
  print text := fun s => ((), s.print text)
  printError text := fun s => ((), s.printError text)

end Session

end ThemeColor.Command
