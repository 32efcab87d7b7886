import ThemeColor.Sheet.Convert

/-!
# Failure reports

What the program says when it fails: what it was doing, and the errors behind that.
-/

namespace ThemeColor.Command

/-- What failed, and why. -/
structure Report where
  /-- What the program was doing. -/
  context : String
  /-- The error, the error behind it, and so on. -/
  causes : List String
  deriving DecidableEq, Repr

namespace Report

/-- A failure with one cause. -/
def ofMessage (context message : String) : Report := ⟨context, [message]⟩

/-- A failure to convert a style sheet. -/
def ofConvertError (context : String) (e : ConvertError) : Report :=
  ⟨context, e.message :: (e.source?.map ColorError.message).toList⟩

/-- The text with some blanks behind every line end. -/
def indentLines (blanks : Nat) (text : String) : String :=
  String.ofList (text.toList.flatMap fun c =>
    if c = '\n' then c :: List.replicate blanks ' ' else [c])

/-- The causes as a numbered list. -/
def numbered (number : Nat) : List String → String
  | [] => ""
  | cause :: rest =>
    let mark := toString number
    "\n" ++ String.ofList (List.replicate (5 - mark.length) ' ') ++ mark ++ ": " ++
      indentLines 7 cause ++ numbered (number + 1) rest

/-- The causes; a single one has no number. -/
def causesText : List String → String
  | [] => ""
  | [cause] => "\n\nCaused by:\n    " ++ indentLines 4 cause
  | causes => "\n\nCaused by:" ++ numbered 0 causes

/-- The text of the report. -/
def text (r : Report) : String := "Error: " ++ r.context ++ causesText r.causes ++ "\n"

end Report

end ThemeColor.Command
