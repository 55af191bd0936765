import StyleExports.Stylesheet.Declaration
import StyleExports.Stylesheet.Sheet

namespace StyleExports.Stylesheet

open Text

@[ext] structure Range where
  start : Nat
  stop : Nat
  deriving DecidableEq, Repr

/-- A declaration with its range, the semicolon included. -/
@[ext] structure PlacedDeclaration where
  declaration : Declaration
  range : Range
  deriving DecidableEq, Repr

inductive Outline where
  | empty
  | rule (selector : String) (declarations : List PlacedDeclaration) (inner : Outline)
      (range : Range) (rest : Outline)
  | atBlock (head : AtRule) (declarations : List PlacedDeclaration) (inner : Outline)
      (range : Range) (rest : Outline)
  | atStatement (head : AtRule) (range : Range) (rest : Outline)
  | comment (range : Range) (rest : Outline)
  /-- Text that is none of the others where it stands. -/
  | other (range : Range) (rest : Outline)
  deriving DecidableEq, Repr

def Sheet.declarations : Nat → Sheet → List PlacedDeclaration
  | _, .empty => []
  | n, .piece p rest =>
    let stop := n + size p.toText
    match p with
    | .statement t _ =>
      match Statement.ofText t with
      | .declaration d => ⟨d, ⟨n, stop⟩⟩ :: declarations stop rest
      | _ => declarations stop rest
    | _ => declarations stop rest
  | n, .block prelude inner closed rest =>
    declarations (n + size prelude + 1 + size inner.toText + size (closingText closed)) rest

/-- The nodes of a sheet whose text begins at an offset; `nested` inside a block. -/
def Sheet.outline (nested : Bool) : Nat → Sheet → Outline
  | _, .empty => .empty
  | n, .piece p rest =>
    let stop := n + size p.toText
    let after := outline nested stop rest
    match p with
    | .blank _ => after
    | .comment _ => .comment ⟨n, stop⟩ after
    | .stray => .other ⟨n, stop⟩ after
    | .statement t _ =>
      match Statement.ofText t with
      | .atRule r => .atStatement r ⟨n, stop⟩ after
      | .declaration _ => if nested then after else .other ⟨n, stop⟩ after
      | .other => .other ⟨n, stop⟩ after
  | n, .block prelude inner closed rest =>
    let first := n + size prelude + 1
    let stop := first + size inner.toText + size (closingText closed)
    let after := outline nested stop rest
    let declarations := inner.declarations first
    let nodes := outline true first inner
    match Prelude.ofText prelude with
    | .atRule r => .atBlock r declarations nodes ⟨n, stop⟩ after
    | .rule s => .rule (String.ofList s) declarations nodes ⟨n, stop⟩ after

namespace Outline

/-- The selectors of all rules in the order of the source, nested ones after those around them. -/
def selectors : Outline → List String
  | .empty => []
  | .rule s _ inner _ rest => s :: (inner.selectors ++ rest.selectors)
  | .atBlock _ _ inner _ rest => inner.selectors ++ rest.selectors
  | .atStatement _ _ rest => rest.selectors
  | .comment _ rest => rest.selectors
  | .other _ rest => rest.selectors

/-- Whether there is a rule or an at-rule among the nodes. -/
def hasRules : Outline → Bool
  | .empty => false
  | .rule .. => true
  | .atBlock .. => true
  | .atStatement .. => true
  | .comment _ rest => rest.hasRules
  | .other _ rest => rest.hasRules

end Outline

def outline (s : List Char) : Outline := (Sheet.ofText s).outline false 0

/-- Where blocks were still open at the end of a text: once per block, all at the end. -/
def unclosedOffsets (s : List Char) : List Nat :=
  List.replicate (Sheet.ofText s).unclosed (size s)

end StyleExports.Stylesheet
