import ThemeColor.Command.Host

/-!
# Files in memory

A folder holds files by their places, and a path leads to a place: every name on it but the last
one has to lead to a folder, `.` stays where it is and `..` goes to the folder around it. Of what
is around the folder, little more than the standard devices is known.
-/

namespace ThemeColor.Command

/-- Something that is read and written like a file. -/
inductive Device where
  /-- Always empty. -/
  | null
  /-- Always full. -/
  | full
  /-- Standard input. -/
  | input
  /-- Standard output. -/
  | output
  /-- Standard error. -/
  | errors
  deriving DecidableEq, Repr

/-- Names that lead to a place from the folder. Names for the folders around it come first: `..`
once for each level, or `/` for the topmost one. -/
abbrev Place.Names := List String

namespace Place

/-- The folder around a place. -/
def parent (names : Names) : Names :=
  match names.getLast? with
  | none => [".."]
  | some ".." => names ++ [".."]
  | some "/" => names
  | some _ => names.dropLast

/-- Whether the place is a folder around the one with the files. Right under the topmost one, the
folder of devices and the one for temporary files are known. -/
def isOuterFolder (names : Names) : Bool :=
  match names with
  | ["/"] | ["/", "dev"] | ["/", "tmp"] => true
  | _ => names.all (· = "..")

/-- The device at a place. -/
def device? : Names → Option Device
  | ["/", "dev", "null"] => some .null
  | ["/", "dev", "full"] => some .full
  | ["/", "dev", "stdin"] => some .input
  | ["/", "dev", "stdout"] => some .output
  | ["/", "dev", "stderr"] => some .errors
  | _ => none

end Place

/-- A path: where it starts, its names, and whether a slash ends it. -/
structure Path where
  /-- Where it starts. -/
  start : Place.Names
  /-- The names between slashes. -/
  names : List String
  /-- Whether a slash follows the last name. -/
  endsInSlash : Bool
  deriving DecidableEq, Repr

namespace Path

/-- The number of bytes that a path has to stay below. -/
def sizeLimit : Nat := 4096

/-- The number of bytes that a name may have. -/
def nameLimit : Nat := 255

/-- The path that a text writes. -/
def ofString (text : String) : Path where
  start := if text.toList.head? = some '/' then ["/"] else []
  names := ((text.toList.splitOn '/').map String.ofList).filter (· ≠ "")
  endsInSlash := text.toList.getLast? = some '/'

/-- Whether the name leads to the folder itself or to the one around it. -/
def isDots (name : String) : Bool := name = "." || name = ".."

end Path

/-- What is at a place. -/
inductive Entry where
  /-- A folder. -/
  | folder
  /-- A file with its content. -/
  | file (content : String)
  /-- A device. -/
  | device (device : Device)
  deriving DecidableEq, Repr

/-- Files by their places. -/
structure Folder where
  /-- The places with the contents. -/
  files : List (Place.Names × String)
  deriving DecidableEq, Repr

namespace Folder

/-- The folder with files under the given paths. -/
def ofFiles (files : List (String × String)) : Folder :=
  ⟨files.map fun (path, content) => ((Path.ofString path).names, content)⟩

/-- Whether there is a folder at the place. -/
def hasFolder (f : Folder) (names : Place.Names) : Bool :=
  Place.isOuterFolder names ||
    f.files.any fun file => names.isPrefixOf file.1 && names ≠ file.1

/-- What is at a place. -/
def entry? (f : Folder) (names : Place.Names) : Option Entry :=
  if f.hasFolder names then some .folder
  else ((f.files.lookup names).map Entry.file).or ((Place.device? names).map Entry.device)

/-- The folder that a name leads to. -/
def enter (f : Folder) (place : Place.Names) (name : String) : Except FileError Place.Names :=
  if name = "." then .ok place
  else if name = ".." then .ok (Place.parent place)
  else if Path.nameLimit < name.utf8ByteSize then .error .nameTooLong
  else
    match f.entry? (place ++ [name]) with
    | some .folder => .ok (place ++ [name])
    | some _ => .error .notFolder
    | none => .error .missing

/-- The folder that some names lead to, one after the other. -/
def walk (f : Folder) (place : Place.Names) : List String → Except FileError Place.Names
  | [] => .ok place
  | name :: rest => do
    let inner ← f.enter place name
    f.walk inner rest

/-- The place that a path leads to, unless that is a folder by the look of its last name. What is
there, and whether anything is, is not asked. -/
def locate (f : Folder) (path : Path) : Except FileError Place.Names := do
  let place ← f.walk path.start path.names.dropLast
  match path.names.getLast? with
  | none => .error .isFolder
  | some name =>
    if Path.isDots name then .error .isFolder
    else .ok (place ++ [name])

/-- Fails if the last name is too long. -/
def checkName (place : Place.Names) : Except FileError Unit :=
  if Path.nameLimit < (place.getLast?.getD "").utf8ByteSize then .error .nameTooLong else .ok ()

/-- The path that a text writes, unless it is too long. -/
def readPath (text : String) : Except FileError Path :=
  if Path.sizeLimit ≤ text.utf8ByteSize then .error .nameTooLong else .ok (Path.ofString text)

/-- What is read under a path: a file or a device. -/
def openToRead (f : Folder) (text : String) : Except FileError Entry := do
  let path ← readPath text
  let place ← f.locate path
  checkName place
  match f.entry? place with
  | none => .error .missing
  | some .folder => .error .isFolder
  | some entry => if path.endsInSlash then .error .notFolder else .ok entry

/-- The content of a file. -/
def read? (f : Folder) (text : String) : Option String :=
  match f.openToRead text with
  | .ok (.file content) => some content
  | _ => none

/-- The place that is written under a path. A file need not be there yet, but a path that ends in a
slash asks for a folder. -/
def openToWrite (f : Folder) (text : String) : Except FileError Place.Names := do
  let path ← readPath text
  let place ← f.locate path
  if path.endsInSlash then throw .isFolder
  checkName place
  if f.hasFolder place then throw .isFolder
  pure place

/-- Replaces or adds the file at a place. -/
def put (f : Folder) (place : Place.Names) (content : String) : Folder :=
  ⟨(place, content) :: f.files.filter fun file => file.1 ≠ place⟩

end Folder

end ThemeColor.Command
