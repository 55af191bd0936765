import StyleExports.Diagnostic
import StyleExports.Export.PathIssue

namespace StyleExports.Export

inductive Finding where
  | forbidden (c : Char)
  | discouraged (c : Char)
  /-- The last of these names was bound to a value, which had to give way to a node. -/
  | collision (path : List String)
  /-- Rules inside an export rule declare nothing. -/
  | nestedRule
  | unclosedBlock
  deriving DecidableEq, Repr

namespace Finding

/-- Only a forbidden character is an error. -/
def severity : Finding → Severity
  | .forbidden _ => .error
  | _ => .warning

def code : Finding → String
  | .forbidden _ => "css_export::selector::forbidden"
  | .discouraged _ => "css_export::selector::discouraged"
  | .collision _ => "css_export::selector::path-collision"
  | .nestedRule => "css_export::selector::nested-rule"
  | .unclosedBlock => "css_export::parse::unclosed-block"

def message : Finding → String
  | .forbidden c => "export path contains forbidden character `" ++ c.toString ++ "`"
  | .discouraged c => "export path contains `" ++ c.toString ++ "`"
  | .collision path =>
    "`" ++ String.intercalate " " path ++ "` was a value and is now replaced by an object"
  | .nestedRule => "nested rules inside an export rule are ignored"
  | .unclosedBlock => "block is not closed before end of file"

def help : Finding → Option String
  | .forbidden _ =>
    some ("Property names may not contain any of " ++ describe Export.forbidden)
  | .discouraged _ => some "Use camelCase names or configure a property name transformer"
  | .collision _ => none
  | .nestedRule => some "Use a separate export rule with a longer path instead"
  | .unclosedBlock => none

def diagnostic (f : Finding) (span : Text.Span) : Diagnostic :=
  ⟨f.severity, f.code, f.message, f.help, some span⟩

end Finding

end StyleExports.Export
