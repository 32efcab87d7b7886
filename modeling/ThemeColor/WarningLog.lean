/-!
# Warnings, each shown once

A log remembers the entries of the warnings that were shown, so that a warning which comes up
many times is shown only the first time. An entry joins the component and the message of a
warning into one text.
-/

namespace ThemeColor

/-- The warnings that were shown. -/
structure WarningLog where
  /-- The entries of the warnings, the latest first. -/
  shown : List String
  deriving DecidableEq, Repr

namespace WarningLog

/-- The log in which nothing was shown. -/
def empty : WarningLog := ⟨[]⟩

/-- The entry of a warning of a component. -/
def entry (component message : String) : String := "[" ++ component ++ "] " ++ message

/-- The line of a warning, in yellow. -/
def line (component message : String) : String :=
  "\x1b[33m[gtkcolor " ++ component ++ "] ⚠ " ++ message ++ "\x1b[39m\n"

/-- Whether the warning is to be shown now, and the log afterwards. -/
def warnOnce (log : WarningLog) (component message : String) : Bool × WarningLog :=
  let e := entry component message
  if e ∈ log.shown then (false, log) else (true, ⟨e :: log.shown⟩)

/-- What can happen to a log. -/
inductive Event where
  /-- A component warns. -/
  | warn (component message : String)
  /-- Everything shown is forgotten. -/
  | clear
  deriving DecidableEq, Repr

/-- Whether a warning is shown, if the event is one, and the log afterwards. -/
def step (log : WarningLog) : Event → Option Bool × WarningLog
  | .warn component message =>
    let (fresh, log) := log.warnOnce component message
    (some fresh, log)
  | .clear => (none, empty)

/-- The answers to a run of events, and the log afterwards. -/
def run (log : WarningLog) : List Event → List (Option Bool) × WarningLog
  | [] => ([], log)
  | event :: rest =>
    let (answer, log) := log.step event
    let (answers, log) := log.run rest
    (answer :: answers, log)

/-- The lines that show the warnings of one component, and the log afterwards. -/
def report (component : String) (log : WarningLog) : List String → List String × WarningLog
  | [] => ([], log)
  | message :: rest =>
    let (fresh, log) := log.warnOnce component message
    let (lines, log) := log.report component rest
    (if fresh then line component message :: lines else lines, log)

end WarningLog

end ThemeColor
