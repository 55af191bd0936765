import StyleExports.Stylesheet.Token

namespace StyleExports.Stylesheet

inductive Piece where
  | blank (text : List Char)
  | comment (text : List Char)
  | statement (text : List Char) (semicolon : Bool)
  /-- A closing brace that closes nothing. -/
  | stray
  deriving DecidableEq, Repr

def Piece.toText : Piece → List Char
  | .blank t => t
  | .comment t => t
  | .statement t semicolon => if semicolon then t ++ [';'] else t
  | .stray => ['}']

/-- A stylesheet as nested pieces that lose nothing of the text. What nothing closes ends with the
text. -/
inductive Sheet where
  | empty
  | piece (p : Piece) (rest : Sheet)
  /-- A block with the text before its brace, and whether a brace closes it. -/
  | block (prelude : List Char) (inner : Sheet) (closed : Bool) (rest : Sheet)
  deriving DecidableEq, Repr, Inhabited

namespace Sheet

def closingText (closed : Bool) : List Char := if closed then ['}'] else []

def toText : Sheet → List Char
  | .empty => []
  | .piece p rest => p.toText ++ rest.toText
  | .block prelude inner closed rest =>
    prelude ++ '{' :: (inner.toText ++ closingText closed) ++ rest.toText

def append : Sheet → Sheet → Sheet
  | .empty, t => t
  | .piece p rest, t => .piece p (rest.append t)
  | .block prelude inner closed rest, t => .block prelude inner closed (rest.append t)

instance : Append Sheet := ⟨append⟩

@[simp] theorem piece_append (p : Piece) (s t : Sheet) : piece p s ++ t = piece p (s ++ t) := rfl

@[simp] theorem block_append (prelude : List Char) (inner : Sheet) (closed : Bool) (s t : Sheet) :
    block prelude inner closed s ++ t = block prelude inner closed (s ++ t) := rfl

@[simp] theorem toText_append (s t : Sheet) : (s ++ t).toText = s.toText ++ t.toText := by
  induction s with
  | empty => rfl
  | piece p rest ih => simp [toText, ih]
  | block prelude inner closed rest _ ih => simp [toText, ih]

/-- Add a token in front of a text of which is known: the pieces up to the first brace that closes
nothing in it, and the pieces after each such brace. -/
def consToken : Token → Sheet × List Sheet → Sheet × List Sheet
  | .blank t, (first, more) => (.piece (.blank t) first, more)
  | .comment t, (first, more) => (.piece (.comment t) first, more)
  | .statement t semicolon, (first, more) => (.piece (.statement t semicolon) first, more)
  | .closing, (first, more) => (.empty, first :: more)
  | .opening prelude, (inner, []) => (.block prelude inner false .empty, [])
  | .opening prelude, (inner, next :: more) => (.block prelude inner true next, more)

/-- The pieces up to the first brace that closes nothing, and the pieces after each such brace. -/
def levels : List Token → Sheet × List Sheet := List.foldr consToken (.empty, [])

/-- The pieces of a text whose stray braces have been set apart. -/
def withStrays (first : Sheet) : List Sheet → Sheet
  | [] => first
  | next :: more => first ++ .piece .stray (withStrays next more)

def ofTokens (ts : List Token) : Sheet := withStrays (levels ts).1 (levels ts).2

def ofText (s : List Char) : Sheet := ofTokens (tokens s)

theorem toText_withStrays (first : Sheet) (more : List Sheet) :
    (withStrays first more).toText = first.toText ++ more.flatMap ('}' :: ·.toText) := by
  induction more generalizing first with
  | nil => simp [withStrays]
  | cons next more ih => simp [withStrays, toText, Piece.toText, ih]

theorem toText_consToken (t : Token) (l : Sheet × List Sheet) :
    (withStrays (consToken t l).1 (consToken t l).2).toText =
      t.toText ++ (withStrays l.1 l.2).toText := by
  obtain ⟨first, more⟩ := l
  cases t with
  | opening prelude =>
    cases more <;>
      simp [consToken, toText_withStrays, toText, Token.toText, closingText]
  | _ => simp [consToken, toText_withStrays, toText, Token.toText, Piece.toText]

theorem toText_ofTokens (ts : List Token) : (ofTokens ts).toText = ts.flatMap Token.toText := by
  induction ts with
  | nil => rfl
  | cons t ts ih =>
    rw [List.flatMap_cons, ← ih]
    exact toText_consToken t (levels ts)

/-- Reading a text loses nothing of it. -/
theorem toText_ofText (s : List Char) : (ofText s).toText = s := by
  rw [ofText, toText_ofTokens, flatMap_toText_tokens]

/-- The number of blocks that nothing closes, at any depth. -/
def unclosed : Sheet → Nat
  | .empty => 0
  | .piece _ rest => rest.unclosed
  | .block _ inner closed rest => inner.unclosed + (if closed then 0 else 1) + rest.unclosed

end Sheet

end StyleExports.Stylesheet
