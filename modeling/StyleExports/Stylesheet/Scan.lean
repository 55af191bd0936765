namespace StyleExports.Stylesheet

/-- What the automaton is inside of. -/
inductive Mode where
  | plain
  /-- After a slash that may begin a comment. -/
  | slash
  /-- After a number sign that may begin an interpolation. -/
  | hash
  | escaped
  /-- In a comment; `star` after an asterisk that may end it. -/
  | comment (star : Bool)
  /-- In a string; `esc` after a backslash. -/
  | quoted (quote : Char) (esc : Bool)
  /-- In an interpolation with so many open braces. -/
  | interpolation (braces : Nat)
  | interpolationQuoted (braces : Nat) (quote : Char) (esc : Bool)
  deriving DecidableEq, Repr, Inhabited

/-- The number of open brackets, and what the automaton is inside of. -/
@[ext] structure Scan where
  depth : Nat
  mode : Mode
  deriving DecidableEq, Repr, Inhabited

def isQuote (c : Char) : Bool := c == '"' || c == '\''

namespace Scan

def start : Scan := ⟨0, .plain⟩

/-- Read a character that nothing protects. Escapes and interpolations are known to the grammar of
items, not to that of declarations. -/
def plainStep (item : Bool) (st : Scan) (c : Char) : Scan :=
  if isQuote c then { st with mode := .quoted c false }
  else if c = '/' then { st with mode := .slash }
  else if item && c == '\\' then { st with mode := .escaped }
  else if item && c == '#' then { st with mode := .hash }
  else if c = '(' ∨ c = '[' then ⟨st.depth + 1, .plain⟩
  else if c = ')' ∨ c = ']' then ⟨st.depth - 1, .plain⟩
  else { st with mode := .plain }

/-- Read a character inside an interpolation. The brace that matches the first one ends it. -/
def interpolationStep (depth braces : Nat) (c : Char) : Scan :=
  if isQuote c then ⟨depth, .interpolationQuoted braces c false⟩
  else if c = '{' then ⟨depth, .interpolation (braces + 1)⟩
  else if c = '}' then
    if braces ≤ 1 then ⟨depth, .plain⟩ else ⟨depth, .interpolation (braces - 1)⟩
  else ⟨depth, .interpolation braces⟩

/-- Whether the next character would be read as plain text. A line feed ends a string that was not
closed before it. -/
def isFree (st : Scan) (c : Char) : Bool :=
  match st.mode with
  | .plain => true
  | .slash => c != '*'
  | .hash => c != '{'
  | .quoted _ esc => !esc && c == '\n'
  | _ => false

def step (item : Bool) (st : Scan) (c : Char) : Scan :=
  if st.isFree c then plainStep item st c
  else
    match st.mode with
    | .plain => plainStep item st c
    | .slash => { st with mode := .comment false }
    | .hash => { st with mode := .interpolation 1 }
    | .escaped => { st with mode := .plain }
    | .comment star =>
      if star && c == '/' then { st with mode := .plain }
      else { st with mode := .comment (c == '*') }
    | .quoted q esc =>
      if esc then { st with mode := .quoted q false }
      else if c = '\\' then { st with mode := .quoted q true }
      else if c = q then { st with mode := .plain }
      else st
    | .interpolation k => interpolationStep st.depth k c
    | .interpolationQuoted k q esc =>
      if esc then { st with mode := .interpolationQuoted k q false }
      else if c = '\\' then { st with mode := .interpolationQuoted k q true }
      else if c = '\n' then interpolationStep st.depth k c
      else if c = q then { st with mode := .interpolation k }
      else st

def run (item : Bool) (st : Scan) (s : List Char) : Scan := s.foldl (step item) st

theorem run_append (item : Bool) (st : Scan) (s t : List Char) :
    run item st (s ++ t) = run item (run item st s) t := List.foldl_append

/-- Whether a character ends the reading: a free delimiter outside brackets. -/
def endsAt (isEnd : Char → Bool) (st : Scan) (c : Char) : Bool :=
  isEnd c && st.depth == 0 && st.isFree c

def upTo (item : Bool) (isEnd : Char → Bool) : Scan → List Char → List Char × List Char
  | _, [] => ([], [])
  | st, c :: s =>
    if st.endsAt isEnd c then ([], c :: s)
    else
      let (a, b) := upTo item isEnd (st.step item c) s
      (c :: a, b)

theorem upTo_append (item : Bool) (isEnd : Char → Bool) (st : Scan) (s : List Char) :
    (upTo item isEnd st s).1 ++ (upTo item isEnd st s).2 = s := by
  induction s generalizing st with
  | nil => rfl
  | cons c s ih =>
    unfold upTo
    split
    · rfl
    · simp [ih]

theorem endsAt_of_upTo {item : Bool} {isEnd : Char → Bool} {st : Scan} {s b : List Char} {c : Char}
    (h : (upTo item isEnd st s).2 = c :: b) :
    (run item st (upTo item isEnd st s).1).endsAt isEnd c = true := by
  induction s generalizing st with
  | nil => simp [upTo] at h
  | cons d s ih =>
    unfold upTo at h ⊢
    by_cases hd : st.endsAt isEnd d
    · simp only [hd, if_true, List.cons.injEq] at h ⊢
      rw [← h.1]
      exact hd
    · simp only [hd] at h ⊢
      exact ih h

end Scan

end StyleExports.Stylesheet
