import ThemeColor.Color.Css
import ThemeColor.Color.Grammar
import ThemeColor.Color.Resolve
import ThemeColor.Command.Host
import ThemeColor.Command.Datum
import ThemeColor.Command.Listing
import ThemeColor.Command.Options
import ThemeColor.Command.Report
import ThemeColor.WarningLog

/-!
# Running the program

The program converts a style sheet, lists its tokens or resolves one color expression. What it
computes is a value, an `Outcome`; only then are warnings and the result handed to the host.
-/

namespace ThemeColor.Command

/-- The result of the work, with the warnings that came up. -/
structure Outcome where
  /-- The text to write. -/
  text : String
  /-- The messages of the warnings. -/
  warnings : List String
  deriving DecidableEq, Repr

/-- The description of a resolved expression as data. -/
def description (expression : String) (color : Color Float) (canonical : Canonical Float) : Datum :=
  .object [("canonical", .ofCanonical canonical), ("css", .text canonical.css),
    ("expression", .text expression), ("parsed", .ofColor color)]

/-- Resolves one color expression. -/
def resolveExpression (expression : String) (json : Bool) : Except Report Outcome :=
  match Color.parse expression with
  | .error e => .error (.ofMessage ("failed to parse `" ++ expression ++ "`") e.message)
  | .ok color =>
    match color.resolve with
    | (.error e, _) => .error (.ofMessage ("failed to resolve `" ++ expression ++ "`") e.message)
    | (.ok canonical, warnings) =>
      let text :=
        if json then (description expression color canonical).pretty 0 else canonical.css
      .ok ⟨text ++ "\n", warnings.map Warning.message⟩

/-- Converts a style sheet; the name tells where it came from. -/
def convertSheet (selector name css : String) : Except Report Outcome :=
  match Sheet.convert selector css.toList with
  | .error e => .error (.ofConvertError ("failed to convert " ++ name) e)
  | .ok c => .ok ⟨c.css, c.warnings.map Warning.message⟩

namespace Options

/-- The path of the style sheet, unless it is standard input. -/
def path? (o : Options) : Option String := o.file.filter (· ≠ "-")

/-- The style sheet in messages. -/
def inputName (o : Options) : String := o.path?.getD "stdin"

/-- The selector of the rule with the defined colors. -/
def selector (o : Options) : String := o.rootSelector.getD ":root"

/-- What is made of the style sheet. -/
def process (o : Options) (css : String) : Except Report Outcome :=
  if o.tokens then .ok ⟨listing css.toList, []⟩ else convertSheet o.selector o.inputName css

end Options

variable {m : Type → Type} [Monad m]

/-- A failure of the host, put into its context. -/
def inContext {α : Type} (context : String) (result : Except String α) : Except Report α :=
  result.mapError (.ofMessage context)

/-- Reads the style sheet. -/
def readSheet (host : Host m) (o : Options) : m (Except Report String) :=
  match o.path? with
  | some path => inContext ("failed to read " ++ path) <$> host.readFile path
  | none => inContext "failed to read stdin" <$> host.readInput

/-- Computes what the options ask for. -/
def compute (host : Host m) (o : Options) : m (Except Report Outcome) :=
  match o.expr with
  | some expression => pure (resolveExpression expression o.json)
  | none => do
    match ← readSheet host o with
    | .error report => pure (.error report)
    | .ok css => pure (o.process css)

/-- Writes the result. -/
def emit (host : Host m) (o : Options) (text : String) : m (Except Report Unit) :=
  match o.output with
  | some path => inContext ("failed to write " ++ path) <$> host.writeFile path text
  | none => Except.ok <$> host.print text

/-- Shows the warnings, each once, and writes the result. -/
def deliver (host : Host m) (o : Options) (outcome : Outcome) : m (Except Report Unit) := do
  let (lines, _) := WarningLog.empty.report "resolve" outcome.warnings
  lines.forM host.printError
  emit host o outcome.text

/-- The exit code of a run; a failure is reported first. -/
def finish (host : Host m) : Except Report Unit → m UInt32
  | .ok _ => pure 0
  | .error report => do
    host.printError report.text
    pure 1

/-- Does what the options ask for, and gives the exit code. -/
def execute (host : Host m) (o : Options) : m UInt32 := do
  match ← compute host o with
  | .error report => finish host (.error report)
  | .ok outcome => finish host (← deliver host o outcome)

/-- What the program says about its version. -/
def versionText : String := "gtkcolor 0.1.0\n"

/-- What the program says about its options. -/
def helpText : String :=
  "Usage: gtkcolor [OPTIONS] [FILE]\n\nOptions:\n" ++
  "  -o, --output <OUT>         Write the result here instead of stdout\n" ++
  "      --root-selector <SEL>  Selector of the rule that receives defined colors\n" ++
  "      --expr <EXPR>          Resolve one color expression instead of a stylesheet\n" ++
  "      --json                 Print the expression and its color as JSON (with --expr)\n" ++
  "      --tokens               Print the token stream of the input\n" ++
  "  -h, --help                 Print help\n" ++
  "  -V, --version              Print version\n"

/-- Runs the program, and gives the exit code. -/
def run (host : Host m) (args : List String) : m UInt32 :=
  match Request.ofArguments args with
  | .error e => do
    host.printError e.message
    pure 2
  | .ok .version => do
    host.print versionText
    pure 0
  | .ok .help => do
    host.print helpText
    pure 0
  | .ok (.run options) => execute host options

end ThemeColor.Command
