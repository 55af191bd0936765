import StyleExports.Export.Finding
import StyleExports.Export.Selector
import StyleExports.Stylesheet.Outline
import StyleExports.Tree.Basic

namespace StyleExports

open Text

/-- An export rule. It stands at the top of a stylesheet or in the block of an at-rule, at any
depth of at-rules, and never inside an ordinary rule. -/
@[ext] structure ExportRule where
  selector : Export.Selector
  offset : Nat
  declarations : List Stylesheet.Declaration
  /-- Whether its block holds rules, which declare nothing. -/
  nested : Bool
  deriving DecidableEq, Repr

def exportSelector? (prelude : List Char) : Option Export.Selector :=
  match Stylesheet.Prelude.ofText prelude with
  | .rule s => Export.Selector.ofText? s
  | .atRule _ => none

def isAtRule (prelude : List Char) : Bool := (Stylesheet.AtRule.ofText? prelude).isSome

namespace Stylesheet.Sheet

def hasRules : Sheet → Bool
  | .empty => false
  | .piece (.statement t _) rest => (AtRule.ofText? t).isSome || rest.hasRules
  | .piece _ rest => rest.hasRules
  | .block .. => true

/-- The export rules of a sheet whose text begins at an offset, in the order of the source. -/
def exportRules : Nat → Sheet → List ExportRule
  | _, .empty => []
  | n, .piece p rest => exportRules (n + size p.toText) rest
  | n, .block prelude inner closed rest =>
    let first := n + size prelude + 1
    let after := exportRules (first + size inner.toText + size (closingText closed)) rest
    match exportSelector? prelude with
    | some e =>
      ⟨e, n, (inner.declarations first).map (·.declaration), inner.hasRules⟩ :: after
    | none => if isAtRule prelude then exportRules first inner ++ after else after

def hasExports : Sheet → Bool
  | .empty => false
  | .piece _ rest => rest.hasExports
  | .block prelude inner _ rest =>
    (exportSelector? prelude).isSome || (isAtRule prelude && inner.hasExports) || rest.hasExports

def withoutExports : Sheet → Sheet
  | .empty => .empty
  | .piece p rest => .piece p rest.withoutExports
  | .block prelude inner closed rest =>
    match exportSelector? prelude with
    | some _ => rest.withoutExports
    | none =>
      .block prelude (if isAtRule prelude then inner.withoutExports else inner) closed
        rest.withoutExports

/-- Whether nothing would be left of a block but comments: its pieces are blanks, comments and
export rules. -/
def isExportsOnly : Sheet → Bool
  | .empty => true
  | .piece (.blank _) rest => rest.isExportsOnly
  | .piece (.comment _) rest => rest.isExportsOnly
  | .piece _ _ => false
  | .block prelude _ _ rest => (exportSelector? prelude).isSome && rest.isExportsOnly

/-- The texts that are passed through, one for each piece at the top that is left: export rules
go, and so do at-rules that held nothing else. -/
def passthrough : Sheet → List (List Char)
  | .empty => []
  | .piece (.blank _) rest => rest.passthrough
  | .piece p rest => p.toText :: rest.passthrough
  | .block prelude inner closed rest =>
    match exportSelector? prelude with
    | some _ => rest.passthrough
    | none =>
      if isAtRule prelude && inner.hasExports && inner.isExportsOnly then rest.passthrough
      else
        let left := if isAtRule prelude then inner.withoutExports else inner
        (block prelude left closed empty).toText :: rest.passthrough

end Stylesheet.Sheet

/-- Whether a rule with this selector is rejected: what follows the marker holds a forbidden
character. -/
def Export.Selector.isRejected (e : Export.Selector) : Bool := e.path.any (· ∈ Export.forbidden)

namespace ExportRule

def rename (f : Option (String → String)) (name : String) : String :=
  match f with
  | some g => g name
  | none => name

/-- The path of a rule after renaming. Names of which nothing is left are skipped. -/
def path (f : Option (String → String)) (r : ExportRule) : List String :=
  (r.selector.segments.map (rename f)).filter (· ≠ "")

def bindings (f : Option (String → String)) (r : ExportRule) : List (String × Value) :=
  (r.declarations.map fun d => (rename f d.property, Value.leaf d.value)).filter (·.1 ≠ "")

def issues (r : ExportRule) : List Export.PathIssue := Export.PathIssue.inPath r.selector.path

/-- A rule is accepted if its path holds no forbidden character. -/
def isAccepted (r : ExportRule) : Bool := r.issues.all (·.kind ≠ .forbidden)

theorem isAccepted_eq (r : ExportRule) : r.isAccepted = !r.selector.isRejected := by
  rw [Bool.eq_iff_iff]
  have issues := Export.PathIssue.forall_mem_inPathFrom 0 r.selector.path
  simpa [isAccepted, ExportRule.issues, Export.PathIssue.inPath, Export.Selector.isRejected]
    using issues

def write (f : Option (String → String)) (r : ExportRule) (t : Tree) : Tree :=
  if r.isAccepted then t.drill (·.insertAll (r.bindings f)) (r.path f) else t

section

variable {f : Option (String → String)} {r : ExportRule} {t : Tree}

theorem write_of_isRejected (h : r.selector.isRejected = true) : r.write f t = t := by
  rw [write, isAccepted_eq, h]
  rfl

theorem write_of_not_isRejected (h : ¬ r.selector.isRejected = true) :
    r.write f t = t.drill (·.insertAll (r.bindings f)) (r.path f) := by
  rw [write, isAccepted_eq, Bool.eq_false_iff.mpr h]
  rfl

end

def pathOffset (r : ExportRule) : Nat := r.offset + size r.selector.marker.text

/-- What is found about one character of the path. A discouraged character is no matter where
names are renamed. -/
def finding? (f : Option (String → String)) (i : Export.PathIssue) : Option Export.Finding :=
  match i.kind with
  | .forbidden => some (.forbidden i.character)
  | .discouraged => if f.isNone then some (.discouraged i.character) else none

def pathDiagnostics (source : List Char) (f : Option (String → String)) (r : ExportRule) :
    Diagnostics :=
  r.issues.filterMap fun i =>
    (finding? f i).map (·.diagnostic (Span.charAt source (r.pathOffset + i.offset)))

def span (source : List Char) (r : ExportRule) : Span :=
  Span.between source r.offset (r.offset + size r.selector.toText)

/-- The diagnostics on writing the rule into a tree, each at its selector. -/
def writeDiagnostics (source : List Char) (f : Option (String → String)) (r : ExportRule)
    (t : Tree) : Diagnostics :=
  let path := r.path f
  let collision := match t.collision? path with
    | some i => [Export.Finding.collision (path.take (i + 1))]
    | none => []
  let nested := if r.nested then [Export.Finding.nestedRule] else []
  (collision ++ nested).map (·.diagnostic (r.span source))

def diagnostics (source : List Char) (f : Option (String → String)) (r : ExportRule) (t : Tree) :
    Diagnostics :=
  r.pathDiagnostics source f ++
    if r.isAccepted then r.writeDiagnostics source f t else []

end ExportRule

end StyleExports
