import ThemeColor.Color.Error
import ThemeColor.Text.Blank
import ThemeColor.Text.Casing

/-!
# Custom properties of a defined color

A color that a style sheet defines under a name is kept in four custom properties, one for each
channel. Their names come from the core of the color's name.
-/

namespace ThemeColor

/-- The names of the four custom properties of a color. -/
structure ChannelNames where
  /-- The property of the red channel. -/
  red : String
  /-- The property of the green channel. -/
  green : String
  /-- The property of the blue channel. -/
  blue : String
  /-- The property of the opacity. -/
  alpha : String
  deriving DecidableEq, Repr

namespace ChannelNames

/-- The names in the order red, green, blue, alpha. -/
def toList (names : ChannelNames) : List String :=
  [names.red, names.green, names.blue, names.alpha]

/-- The references to the four properties. -/
def references (names : ChannelNames) : List String :=
  names.toList.map fun name => "var(" ++ name ++ ")"

/-- The core of a name: its lower case form without `@` and blank ends, with `-` for `_`. -/
def core (identifier : String) : List Char :=
  (Text.trim ((Text.lower identifier.toList).filter (· ≠ '@'))).map
    fun c => if c = '_' then '-' else c

/-- The custom property of the core for one channel. -/
def property (core : List Char) (channel : Char) : String :=
  String.ofList ('-' :: '-' :: (core ++ ['-', channel]))

/-- The properties that a core names. -/
def ofCore (core : List Char) : ChannelNames :=
  ⟨property core 'r', property core 'g', property core 'b', property core 'a'⟩

/-- The properties of the color with a name. A core that is empty or holds a blank names none. -/
def ofIdentifier (identifier : String) : Except ColorError ChannelNames :=
  let core := core identifier
  if core = [] ∨ core.any Text.isBlank then .error (.invalidIdentifier identifier)
  else .ok (ofCore core)

end ChannelNames

end ThemeColor
