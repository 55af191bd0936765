import StyleExports.Text.Cut
import StyleExports.Text.LetterCase

namespace StyleExports

open Text

/-- The ways of renaming path segments and property names that can be chosen by name. -/
inductive Casing where
  | lowerCamel
  | upperCamel
  deriving DecidableEq, Repr

namespace Casing

def lowered (w : List Char) : List Char := w.flatMap LetterCase.lower

def capitalized : List Char → List Char
  | [] => []
  | c :: w => LetterCase.upper c ++ lowered w

def segments (s : List Char) : List (List Char) := split (· == '-') s

/-- A hyphen in front makes an empty first segment, so the word behind it is capitalised. -/
def toLowerCamel (s : List Char) : List Char :=
  match segments s with
  | [] => []
  | w :: ws => lowered w ++ ws.flatMap capitalized

def toUpperCamel (s : List Char) : List Char := (segments s).flatMap capitalized

def apply : Casing → String → String
  | .lowerCamel, s => String.ofList (toLowerCamel s.toList)
  | .upperCamel, s => String.ofList (toUpperCamel s.toList)

end Casing

/-- Any way of renaming path segments and property names. -/
structure Renaming where
  apply : String → String

def Casing.renaming (c : Casing) : Renaming := ⟨c.apply⟩

instance : Coe (Option Casing) (Option Renaming) := ⟨Option.map Casing.renaming⟩

end StyleExports
