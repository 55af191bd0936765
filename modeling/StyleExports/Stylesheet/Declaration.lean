import StyleExports.Stylesheet.Scan
import StyleExports.Text.Blank
import StyleExports.Text.Cut

namespace StyleExports.Stylesheet

open Text

@[ext] structure Declaration where
  property : String
  value : String
  important : Bool
  deriving DecidableEq, Repr

@[ext] structure AtRule where
  name : String
  params : String
  deriving DecidableEq, Repr

namespace Declaration

def flag : List Char := ['i', 'm', 'p', 'o', 'r', 't', 'a', 'n', 't']

/-- A trimmed value without its flag, and whether it has one. -/
def splitFlag (value : List Char) : List Char × Bool :=
  match cutLast? (· == '!') value with
  | some (before, after) =>
    if eqIgnoreCase (trim after) flag then (trimEnd before, true) else (value, false)
  | none => (value, false)

/-- The text before and after the first colon outside strings, comments and brackets. -/
def cutColon? (s : List Char) : Option (List Char × List Char) :=
  match Scan.upTo false (· == ':') .start s with
  | (property, _ :: value) => some (property, value)
  | (_, []) => none

def ofText? (s : List Char) : Option Declaration :=
  match cutColon? s with
  | none => none
  | some (before, after) =>
    let property := trim before
    if property.isEmpty then none
    else
      let (value, important) := splitFlag (trim after)
      some ⟨String.ofList property, String.ofList value, important⟩

end Declaration

namespace AtRule

def isNameChar (c : Char) : Bool := !(isBlank c || c == '(' || isQuote c)

def ofBody (s : List Char) : AtRule :=
  ⟨String.ofList (s.takeWhile isNameChar), String.ofList (trim (s.dropWhile isNameChar))⟩

/-- Read an at-rule; its text begins with its sign. -/
def ofText? : List Char → Option AtRule
  | '@' :: s => some (ofBody s)
  | _ => none

end AtRule

inductive Statement where
  | atRule (r : AtRule)
  | declaration (d : Declaration)
  | other
  deriving DecidableEq, Repr

def Statement.ofText (s : List Char) : Statement :=
  match AtRule.ofText? s with
  | some r => .atRule r
  | none =>
    match Declaration.ofText? s with
    | some d => .declaration d
    | none => .other

inductive Prelude where
  | atRule (r : AtRule)
  | rule (selector : List Char)
  deriving DecidableEq, Repr

/-- Read the text before a block: an at-rule, or the selector of a rule. -/
def Prelude.ofText (s : List Char) : Prelude :=
  match AtRule.ofText? s with
  | some r => .atRule r
  | none => .rule (trimEnd s)

end StyleExports.Stylesheet
