/-!
# Command line

The options of the program, and how they are read from its arguments: `[FILE]`, `-o` or `--output`
with a path, `--root-selector`, `--expr`, `--json`, `--tokens`, `--version` and `--help`.
-/

namespace ThemeColor.Command

/-- Why the arguments cannot be used. -/
inductive UsageError where
  /-- No option has the name. -/
  | unknownOption (name : String)
  /-- An option lacks its value. -/
  | missingValue (name : String)
  /-- An option takes no value. -/
  | unexpectedValue (name : String)
  /-- An option is given twice. -/
  | repeated (name : String)
  /-- There is more than one file. -/
  | extraFile (path : String)
  /-- A path is empty. -/
  | emptyPath
  /-- Two options exclude each other. -/
  | conflict
  /-- An option needs another one. -/
  | needsExpression
  deriving DecidableEq, Repr

/-- The message of the error. -/
def UsageError.message : UsageError → String
  | .unknownOption name => "error: unexpected argument '" ++ name ++ "' found\n"
  | .missingValue name => "error: a value is required for '" ++ name ++ "' but none was supplied\n"
  | .unexpectedValue name => "error: unexpected value for '" ++ name ++ "' found\n"
  | .repeated name => "error: the argument '" ++ name ++ "' cannot be used multiple times\n"
  | .extraFile path => "error: unexpected argument '" ++ path ++ "' found\n"
  | .emptyPath => "error: a path must not be empty\n"
  | .conflict => "error: the argument '--expr' cannot be used with '--tokens'\n"
  | .needsExpression => "error: the argument '--json' requires '--expr'\n"

/-- What the program is asked to do. -/
structure Options where
  /-- The style sheet; standard input if there is none or it is `-`. -/
  file : Option String
  /-- Where the result goes; standard output if there is none. -/
  output : Option String
  /-- The selector of the rule with the defined colors. -/
  rootSelector : Option String
  /-- A color expression to resolve instead of a style sheet. -/
  expr : Option String
  /-- Whether the expression is described as data. -/
  json : Bool
  /-- Whether the tokens are listed instead of a conversion. -/
  tokens : Bool
  deriving DecidableEq, Repr

/-- What the arguments ask for. -/
inductive Request where
  /-- The version of the program. -/
  | version
  /-- A summary of the options. -/
  | help
  /-- A run with some options. -/
  | run (options : Options)
  deriving DecidableEq, Repr

namespace Options

/-- No options. -/
def none : Options := ⟨.none, .none, .none, .none, false, false⟩

/-- Sets the style sheet. -/
def setFile (o : Options) (path : String) : Except UsageError Options :=
  if path = "" then .error .emptyPath
  else if o.file.isSome then .error (.extraFile path)
  else .ok { o with file := some path }

/-- Sets the path of the result. -/
def setOutput (o : Options) (path : String) : Except UsageError Options :=
  if path = "" then .error .emptyPath
  else if o.output.isSome then .error (.repeated "--output")
  else .ok { o with output := some path }

/-- Sets the selector. -/
def setRootSelector (o : Options) (selector : String) : Except UsageError Options :=
  if o.rootSelector.isSome then .error (.repeated "--root-selector")
  else .ok { o with rootSelector := some selector }

/-- Sets the color expression. -/
def setExpr (o : Options) (expression : String) : Except UsageError Options :=
  if o.expr.isSome then .error (.repeated "--expr")
  else .ok { o with expr := some expression }

/-- Asks for data. -/
def setJson (o : Options) : Except UsageError Options :=
  if o.json then .error (.repeated "--json") else .ok { o with json := true }

/-- Asks for the tokens. -/
def setTokens (o : Options) : Except UsageError Options :=
  if o.tokens then .error (.repeated "--tokens") else .ok { o with tokens := true }

/-- The options, unless some exclude each other or one lacks another. Data needs an expression,
except next to the tokens, which rule an expression out. -/
def check (o : Options) : Except UsageError Request :=
  if o.expr.isSome && o.tokens then .error .conflict
  else if o.json && o.expr.isNone && !o.tokens then .error .needsExpression
  else .ok (.run o)

end Options

/-- What an argument is. -/
inductive Argument where
  /-- The mark after which everything is a file. -/
  | separator
  /-- A long option with the text behind its `=`. -/
  | long (name : String) (value : Option String)
  /-- A short option with the text behind its letter. -/
  | short (letter : Char) (value : String)
  /-- Anything else. -/
  | plain (text : String)
  deriving DecidableEq, Repr

namespace Argument

/-- Tells what an argument is. -/
def ofString (text : String) : Argument :=
  match text.toList with
  | ['-', '-'] => .separator
  | '-' :: '-' :: rest =>
    let name := String.ofList (rest.takeWhile (· ≠ '='))
    match rest.dropWhile (· ≠ '=') with
    | [] => .long name none
    | _ :: value => .long name (some (String.ofList value))
  | '-' :: letter :: rest => .short letter (String.ofList rest)
  | _ => .plain text

end Argument

/-- Sets an option that takes a value. -/
abbrev Setter := Options → String → Except UsageError Options

/-- The long options that take a value. -/
def valueOption? (name : String) : Option Setter :=
  if name = "output" then some Options.setOutput
  else if name = "root-selector" then some Options.setRootSelector
  else if name = "expr" then some Options.setExpr
  else none

/-- The long options without a value. -/
def flagOption? (name : String) : Option (Options → Except UsageError Options) :=
  if name = "json" then some Options.setJson
  else if name = "tokens" then some Options.setTokens
  else none

/-- Reads the files after the separator. -/
def readFiles (o : Options) : List String → Except UsageError Request
  | [] => o.check
  | path :: rest => do
    let o ← o.setFile path
    readFiles o rest

/-- The value behind `=` or behind the letter of a short option. -/
def attachedValue (text : String) : String :=
  match text.toList with
  | '=' :: value => String.ofList value
  | _ => text

/-- Reads the arguments from left to right. -/
def readArguments (o : Options) : List String → Except UsageError Request
  | [] => o.check
  | arg :: rest =>
    match Argument.ofString arg with
    | .separator => readFiles o rest
    | .plain path => do
      let o ← o.setFile path
      readArguments o rest
    | .long "version" value =>
      if value.isSome then .error (.unexpectedValue "--version") else .ok .version
    | .long "help" value =>
      if value.isSome then .error (.unexpectedValue "--help") else .ok .help
    | .long name value =>
      match valueOption? name, flagOption? name, value with
      | some set, _, some value => do
        let o ← set o value
        readArguments o rest
      | some set, _, none =>
        match rest with
        | [] => .error (.missingValue ("--" ++ name))
        | value :: rest =>
          match Argument.ofString value with
          | .plain value => do
            let o ← set o value
            readArguments o rest
          | _ => .error (.missingValue ("--" ++ name))
      | none, some set, none => do
        let o ← set o
        readArguments o rest
      | none, some _, some _ => .error (.unexpectedValue ("--" ++ name))
      | none, none, _ => .error (.unknownOption ("--" ++ name))
    | .short 'V' _ => .ok .version
    | .short 'h' _ => .ok .help
    | .short 'o' value =>
      if value ≠ "" then do
        let o ← o.setOutput (attachedValue value)
        readArguments o rest
      else
        match rest with
        | [] => .error (.missingValue "-o")
        | value :: rest =>
          match Argument.ofString value with
          | .plain value => do
            let o ← o.setOutput value
            readArguments o rest
          | _ => .error (.missingValue "-o")
    | .short letter _ => .error (.unknownOption ("-" ++ letter.toString))

/-- What the arguments ask for. -/
def Request.ofArguments (args : List String) : Except UsageError Request :=
  readArguments Options.none args

end ThemeColor.Command
