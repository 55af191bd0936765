import StyleExports.Casing
import StyleExports.Export.Rule

namespace StyleExports

open Text

/-- What a stylesheet shares, and the text that is passed on. -/
@[ext] structure Extract where
  tree : Tree
  passthrough : String
  deriving DecidableEq, Repr, Inhabited

@[ext] structure Extraction where
  extract : Extract
  diagnostics : Diagnostics
  deriving DecidableEq, Repr

namespace Extraction

def writeAll (f : Option (String → String)) (rules : List ExportRule) (t : Tree) : Tree :=
  rules.foldl (fun t r => r.write f t) t

def diagnosticsOn (source : List Char) (f : Option (String → String)) :
    List ExportRule → Tree → Diagnostics
  | [], _ => []
  | r :: rules, t =>
    r.diagnostics source f t ++ diagnosticsOn source f rules (r.write f t)

def unclosedDiagnostics (source : List Char) : Diagnostics :=
  (Stylesheet.unclosedOffsets source).map fun n =>
    Export.Finding.unclosedBlock.diagnostic (Span.between source n n)

/-- Extract from a text, renaming names by any function or not at all. -/
def ofTextWith (f : Option (String → String)) (source : List Char) : Extraction :=
  let sheet := Stylesheet.Sheet.ofText source
  let rules := sheet.exportRules 0
  { extract :=
      { tree := writeAll f rules .empty
        passthrough := String.ofList (join ['\n'] sheet.passthrough) }
    diagnostics :=
      diagnosticsOn source f rules .empty ++ unclosedDiagnostics source }

def ofText (casing : Option Renaming) (source : List Char) : Extraction :=
  ofTextWith (casing.map Renaming.apply) source

end Extraction

end StyleExports
