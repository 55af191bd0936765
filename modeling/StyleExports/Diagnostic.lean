import StyleExports.Text.Position
import StyleExports.Text.Quoted

namespace StyleExports

inductive Severity where
  | warning
  | error
  deriving DecidableEq, Repr

def Severity.word : Severity → String
  | .warning => "warning"
  | .error => "error"

/-- A remark on a stylesheet, with a code for programs, and a place when it has one. -/
@[ext] structure Diagnostic where
  severity : Severity
  code : String
  message : String
  help : Option String
  span : Option Text.Span
  deriving DecidableEq, Repr

namespace Diagnostic

def render (d : Diagnostic) : String :=
  let place := match d.span with
    | some p => " " ++ p.start.render
    | none => ""
  d.severity.word ++ "[" ++ d.code ++ "]" ++ place ++ ": " ++ d.message

/-- A diagnostic as one line for programs: a JSON array of severity, code, message, help, and a
label for the place if there is one. -/
def report (d : Diagnostic) : String :=
  let help := match d.help with
    | some h => Text.Quoted.literal h
    | none => "null"
  let label := match d.span with
    | some p => "[" ++ toString p.start.offset ++ "," ++ toString p.length ++ ",\"here\"]"
    | none => ""
  let fields := [Text.Quoted.literal d.severity.word, Text.Quoted.literal d.code,
    Text.Quoted.literal d.message, help, "[" ++ label ++ "]"]
  "report [" ++ String.intercalate "," fields ++ "]"

end Diagnostic

abbrev Diagnostics := List Diagnostic

namespace Diagnostics

def countOf (s : Severity) (ds : Diagnostics) : Nat := ds.countP (·.severity == s)

def hasErrors (ds : Diagnostics) : Bool := ds.any (·.severity == .error)

def hasWarnings (ds : Diagnostics) : Bool := ds.any (·.severity == .warning)

def summary (ds : Diagnostics) : String :=
  let errors := ds.countOf .error
  let warnings := ds.countOf .warning
  if 0 < errors then toString errors ++ " error(s), " ++ toString warnings ++ " warning(s)"
  else if 0 < warnings then "passed (" ++ toString warnings ++ " warning(s))"
  else "passed"

end Diagnostics

end StyleExports
