import StyleExports.Text.Blank

namespace StyleExports.Export

/-- The two spellings of the token that introduces an export rule. -/
inductive Marker where
  | export
  | share
  deriving DecidableEq, Repr

def Marker.text : Marker → List Char
  | .export => [':', 'e', 'x', 'p', 'o', 'r', 't']
  | .share => [':', 's', 'h', 'a', 'r', 'e']

/-- An export selector: its marker and whatever follows the marker. -/
@[ext] structure Selector where
  marker : Marker
  path : List Char
  deriving DecidableEq, Repr

namespace Selector

/-- A path is empty or set off from its marker by a blank. -/
def isPath : List Char → Bool
  | [] => true
  | c :: _ => Text.isBlank c

def matchMarker? (m : Marker) (s : List Char) : Option Selector :=
  match m.text.isPrefixOf? s with
  | some path => if isPath path then some ⟨m, path⟩ else none
  | none => none

def ofText? (s : List Char) : Option Selector :=
  (matchMarker? .export s).or (matchMarker? .share s)

def toText (e : Selector) : List Char := e.marker.text ++ e.path

def segments (e : Selector) : List String := (Text.words e.path).map String.ofList

end Selector

end StyleExports.Export
