import StyleExports.Stylesheet.Scan
import StyleExports.Text.Cut
import StyleExports.Text.Blank

namespace StyleExports.Stylesheet

inductive Token where
  | blank (text : List Char)
  | comment (text : List Char)
  /-- An item without a block, and whether a semicolon ends it. -/
  | statement (text : List Char) (semicolon : Bool)
  /-- The text before a block and the brace that opens the block. -/
  | opening (prelude : List Char)
  | closing
  deriving DecidableEq, Repr

namespace Token

def toText : Token → List Char
  | .blank t => t
  | .comment t => t
  | .statement t semicolon => if semicolon then t ++ [';'] else t
  | .opening t => t ++ ['{']
  | .closing => ['}']

def isDelimiter (c : Char) : Bool := c == ';' || c == '{' || c == '}'

/-- The rest of a comment, its end included, and what follows; `star` after an asterisk. -/
def commentRest : Bool → List Char → List Char × List Char
  | _, [] => ([], [])
  | star, c :: s =>
    if star && c == '/' then ([c], s)
    else
      let (a, b) := commentRest (c == '*') s
      (c :: a, b)

def ofItem (text : List Char) : List Char → Token × List Char
  | '{' :: rest => (.opening text, rest)
  | ';' :: rest => (.statement text true, rest)
  | rest => (.statement text false, rest)

def next (c : Char) (s : List Char) : Token × List Char :=
  if Text.isSpace c then (.blank (c :: s.takeWhile Text.isSpace), s.dropWhile Text.isSpace)
  else if c = '}' then (.closing, s)
  else
    match c, s with
    | '/', '*' :: s =>
      let (a, b) := commentRest false s
      (.comment ('/' :: '*' :: a), b)
    | c, s =>
      let (text, rest) := Scan.upTo true isDelimiter .start (c :: s)
      ofItem text rest

theorem commentRest_append (star : Bool) (s : List Char) :
    (commentRest star s).1 ++ (commentRest star s).2 = s := by
  induction s generalizing star with
  | nil => rfl
  | cons c s ih =>
    unfold commentRest
    split
    · rfl
    · simp [ih]

theorem ofItem_append (text rest : List Char) :
    (ofItem text rest).1.toText ++ (ofItem text rest).2 = text ++ rest := by
  unfold ofItem
  split <;> simp [toText]

theorem next_append (c : Char) (s : List Char) :
    (next c s).1.toText ++ (next c s).2 = c :: s := by
  unfold next
  split
  · simp [toText]
  · split
    · rename_i h
      simp [toText, h]
    · split
      · simp [toText, commentRest_append]
      · rw [ofItem_append, Scan.upTo_append]

theorem ofItem_toText_ne_nil {text rest : List Char} (h : text ≠ []) :
    (ofItem text rest).1.toText ≠ [] := by
  unfold ofItem
  split <;> simp [toText, h]

theorem next_toText_ne_nil (c : Char) (s : List Char) : (next c s).1.toText ≠ [] := by
  unfold next
  split
  · simp [toText]
  · split
    · simp [toText]
    · rename_i hc
      split
      · simp [toText]
      · by_cases h : Scan.start.endsAt isDelimiter c = true
        · simp only [Scan.endsAt, isDelimiter, Bool.and_eq_true, Bool.or_eq_true, beq_iff_eq] at h
          obtain ⟨⟨(rfl | rfl) | rfl, _⟩, _⟩ := h
          · simp [Scan.upTo, Scan.endsAt, isDelimiter, Scan.start, Scan.isFree, ofItem, toText]
          · simp [Scan.upTo, Scan.endsAt, isDelimiter, Scan.start, Scan.isFree, ofItem, toText]
          · exact absurd rfl hc
        · simp only [Scan.upTo, h]
          exact ofItem_toText_ne_nil (List.cons_ne_nil _ _)

theorem length_next_lt (c : Char) (s : List Char) : (next c s).2.length < (c :: s).length := by
  have h := congrArg List.length (next_append c s)
  have := List.length_pos_iff.2 (next_toText_ne_nil c s)
  rw [List.length_append] at h
  omega

end Token

def tokens (s : List Char) : List Token :=
  match s with
  | [] => []
  | c :: s => (Token.next c s).1 :: tokens (Token.next c s).2
termination_by s.length
decreasing_by exact Token.length_next_lt c s

@[simp] theorem tokens_nil : tokens [] = [] := by rw [tokens]

theorem tokens_cons (c : Char) (s : List Char) :
    tokens (c :: s) = (Token.next c s).1 :: tokens (Token.next c s).2 := by rw [tokens]

/-- The tokens lose nothing of the text. -/
theorem flatMap_toText_tokens (s : List Char) : (tokens s).flatMap Token.toText = s := by
  fun_induction tokens s with
  | case1 => rfl
  | case2 c s ih => rw [List.flatMap_cons, ih, Token.next_append]

end StyleExports.Stylesheet
