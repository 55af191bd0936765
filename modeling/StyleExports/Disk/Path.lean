import StyleExports.Text.Blank
import StyleExports.Text.Cut

namespace StyleExports

namespace Text

/-- Whether a list comes before another or is the same, by an order of their elements. -/
def lexLe {α : Type} (le : α → α → Bool) : List α → List α → Bool
  | [], _ => true
  | _ :: _, [] => false
  | a :: s, b :: t => le a b && (!le b a || lexLe le s t)

def charLe (c d : Char) : Bool := Nat.ble c.toNat d.toNat

def le (s t : List Char) : Bool := lexLe charLe s t

end Text

namespace Disk

open Text

/-- A path as it is written. Two paths are the same if their components are. -/
@[ext] structure Path where
  chars : List Char
  deriving DecidableEq, Repr

inductive Component where
  | root
  | here
  | up
  | name (s : List Char)
  deriving DecidableEq, Repr

namespace Component

/-- Numbers by which components are ordered: names come last and are ordered by their
characters. -/
def key : Component → List Nat
  | .root => [0]
  | .here => [1]
  | .up => [2]
  | .name s => 3 :: s.map Char.toNat

def le (a b : Component) : Bool := lexLe Nat.ble a.key b.key

end Component

namespace Path

def ofString (s : String) : Path := ⟨s.toList⟩

def text (p : Path) : String := String.ofList p.chars

def isAbsolute (p : Path) : Bool := p.chars.head? == some '/'

def parts (p : Path) : List (List Char) := split (· == '/') p.chars

def ofParts (ps : List (List Char)) : Path := ⟨join ['/'] ps⟩

theorem ofParts_parts (p : Path) : ofParts p.parts = p := by
  simp [ofParts, parts, join_split]

/-- Parts that say nothing behind another one. -/
def isTrivial (s : List Char) : Bool := s == [] || s == ['.']

def trimmed (ps : List (List Char)) : List (List Char) := dropEndWhile isTrivial ps

/-- The component of a part behind another one. -/
def component? (s : List Char) : Option Component :=
  if isTrivial s then none else if s = ['.', '.'] then some .up else some (.name s)

/-- The component of the part in front; `more` says whether a slash follows. -/
def firstComponent? (s : List Char) (more : Bool) : Option Component :=
  if s = [] then if more then some .root else none
  else if s = ['.'] then some .here
  else component? s

def components (p : Path) : List Component :=
  match p.parts with
  | [] => []
  | s :: ps => (firstComponent? s (!ps.isEmpty)).toList ++ ps.filterMap component?

def same (p q : Path) : Bool := p.components == q.components

/-- The path of a first part and parts behind it. If the first is empty, the path begins at the
root. -/
def ofTrimmed (s : List Char) (ps : List (List Char)) : Path :=
  if s = [] ∧ ps = [] then ⟨['/']⟩ else ofParts (s :: ps)

/-- The path without its last component. The root and the empty path have none. -/
def parent? (p : Path) : Option Path :=
  match p.parts with
  | [] => none
  | s :: ps =>
    match trimmed ps with
    | [] => if s = [] then none else some ⟨[]⟩
    | qs => some (ofTrimmed s (trimmed qs.dropLast))

def fileName? (p : Path) : Option (List Char) :=
  match p.components.getLast? with
  | some (.name s) => some s
  | _ => none

/-- A name before and after its last dot, unless the dot stands in front. -/
def cutExtension (name : List Char) : List Char × Option (List Char) :=
  match cutLast? (· == '.') name with
  | some ([], _) => (name, none)
  | some (stem, e) => (stem, some e)
  | none => (name, none)

def stem? (p : Path) : Option (List Char) := p.fileName?.map fun s => (cutExtension s).1

def extension? (p : Path) : Option (List Char) := p.fileName?.bind fun s => (cutExtension s).2

def join (p q : Path) : Path :=
  if q.isAbsolute then q
  else if p.chars = [] ∨ p.chars.getLast? = some '/' then ⟨p.chars ++ q.chars⟩
  else ⟨p.chars ++ '/' :: q.chars⟩

/-- Parts without the first `n` that are not trivial, and without trivial ones in front. -/
def dropParts : Nat → List (List Char) → List (List Char)
  | 0, ps => ps.dropWhile isTrivial
  | n + 1, ps => dropParts n (ps.dropWhile isTrivial).tail

/-- The rest of a path behind another path that it begins with. -/
def strip? (base p : Path) : Option Path :=
  if base.components.isPrefixOf p.components then
    match p.parts, base.components with
    | [], _ => some p
    | s :: ps, [] => if ps.isEmpty then some p else some (ofTrimmed s (trimmed ps))
    | _ :: ps, _ :: cs => some (ofParts (trimmed (dropParts cs.length ps)))
  else none

def le (p q : Path) : Bool := lexLe Component.le p.components q.components

end Path

end Disk

end StyleExports
