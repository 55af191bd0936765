import StyleExports.EsModule.Literal
import StyleExports.Text.Cut

namespace StyleExports.EsModule

inductive Fault where
  | unterminatedString
  | unterminatedTemplate
  | unterminatedComment
  | unterminatedRegex
  | unexpected (bracket : Char)
  | unclosed (bracket : Char)
  deriving DecidableEq, Repr

def Fault.message : Fault → String
  | .unterminatedString => "unterminated string"
  | .unterminatedTemplate => "unterminated template literal"
  | .unterminatedComment => "unterminated comment"
  | .unterminatedRegex => "unterminated regular expression"
  | .unexpected c => "unexpected `" ++ c.toString ++ "`"
  | .unclosed c => "unclosed `" ++ c.toString ++ "`"

/-- The keywords that begin a statement on a line of its own. -/
def statementKeywords : List (List Char) :=
  ["import", "export", "const", "let", "var", "function", "class", "async"].map String.toList

/-- The keywords after which an expression is expected, so that a slash begins a regular
expression. -/
def operandKeywords : List (List Char) :=
  ["return", "typeof", "instanceof", "in", "of", "new", "delete", "void", "throw", "case", "do",
    "else", "yield", "await"].map String.toList

/-- What follows a keyword at the start of a text. An identifier that only begins with the keyword
is another word. -/
def afterKeyword? (keyword s : List Char) : Option (List Char) :=
  match keyword.isPrefixOf? s with
  | none => none
  | some [] => some []
  | some (c :: rest) => if isIdentChar c then none else some (c :: rest)

/-- Whether a text begins, after blanks, with a keyword that begins a statement. -/
def startsStatement (s : List Char) : Bool :=
  statementKeywords.any fun k => (afterKeyword? k (s.dropWhile Text.isSpace)).isSome

/-- Whether a line can be the end of a statement, by its last significant character. -/
def isComplete : Option Char → Bool
  | none => true
  | some c => c ∉ ['=', ',', '(', '[', '{', ':', '?', '+', '-', '*', '/', '%', '&', '|', '^', '!',
      '~', '<', '>', '.']

/-- Whether a slash begins a regular expression, by the text of the statement before it, read
backwards. After a value it is a division. -/
def regexAllowed (before : List Char) : Bool :=
  match before.dropWhile Text.isSpace with
  | [] => true
  | c :: s =>
    if isIdentChar c then ((c :: s).takeWhile isIdentChar).reverse ∈ operandKeywords
    else c ∉ [')', ']', '}', '"', '\'', '`']

/-- What the automaton is inside of. -/
inductive Mode where
  | plain
  /-- After a slash, and whether a regular expression may stand there. -/
  | slash (regex : Bool)
  | lineComment
  /-- In a comment between delimiters; `star` after an asterisk that may end it. -/
  | blockComment (star : Bool)
  | literal (opening : Char) (l : Literal)
  | regex (inClass esc : Bool)
  /-- After a regular expression, among its flags. -/
  | flags
  deriving DecidableEq, Repr

/-- The automaton that finds the end of a statement: a semicolon outside brackets, or a line feed
outside brackets where the line looks complete and the next text begins with a keyword. Strings,
templates, comments and regular expression literals are read as wholes. -/
@[ext] structure Scan where
  /-- The text, read backwards. -/
  before : List Char
  /-- The open brackets, innermost first. -/
  brackets : List Char
  /-- The last significant character: no blank, and none of a comment. -/
  last : Option Char
  mode : Mode
  /-- Where the literal or comment began that the automaton is inside of. -/
  since : Nat
  deriving DecidableEq, Repr

namespace Scan

def start : Scan := ⟨[], [], none, .plain, 0⟩

def offset (st : Scan) : Nat := Text.size st.before

inductive Step where
  | more (st : Scan)
  /-- The statement ends before the character. -/
  | endsBefore
  /-- The character is the last of the statement. -/
  | endsWith
  deriving DecidableEq, Repr

abbrev Placed := Fault × Nat

def opening : Char → Char
  | ')' => '('
  | ']' => '['
  | _ => '{'

def push (st : Scan) (c : Char) : Scan := { st with before := c :: st.before, mode := .plain }

def pushLast (st : Scan) (c : Char) : Scan := { st.push c with last := some c }

def begin (st : Scan) (c : Char) (mode : Mode) : Scan :=
  { st with before := c :: st.before, mode := mode, since := st.offset }

/-- Read a character that nothing protects; `rest` follows it. -/
def plainStep (st : Scan) (c : Char) (rest : List Char) : Except Placed Step :=
  match Literal.open? c with
  | some l => .ok (.more (st.begin c (.literal c l)))
  | none =>
    if c = '/' then .ok (.more (st.begin c (.slash (regexAllowed st.before))))
    else if c = '(' ∨ c = '[' ∨ c = '{' then
      .ok (.more { st.pushLast c with brackets := c :: st.brackets })
    else if c = ')' ∨ c = ']' ∨ c = '}' then
      match st.brackets with
      | b :: bs =>
        if b = opening c then .ok (.more { st.pushLast c with brackets := bs })
        else .error (.unexpected c, st.offset)
      | [] => .error (.unexpected c, st.offset)
    else if c = ';' ∧ st.brackets = [] then .ok .endsWith
    else if c = '\n' ∧ st.brackets = [] ∧ isComplete st.last ∧ startsStatement rest then
      .ok .endsBefore
    else if Text.isSpace c then .ok (.more (st.push c))
    else .ok (.more (st.pushLast c))

def regexStep (st : Scan) (inClass esc : Bool) (c : Char) : Except Placed Step :=
  let go (mode : Mode) : Except Placed Step := .ok (.more { st.push c with mode := mode })
  if esc then go (.regex inClass false)
  else if c = '\\' then go (.regex inClass true)
  else if c = '\n' then .error (.unterminatedRegex, st.since)
  else if c = '[' then go (.regex true false)
  else if c = ']' then go (.regex false false)
  else if c = '/' ∧ inClass = false then .ok (.more { st.pushLast c with mode := .flags })
  else go (.regex inClass false)

def literalFault (opening : Char) : Fault :=
  if opening = '`' then .unterminatedTemplate else .unterminatedString

def step (st : Scan) (c : Char) (rest : List Char) : Except Placed Step :=
  match st.mode with
  | .plain => st.plainStep c rest
  | .slash regex =>
    if c = '/' then .ok (.more { st.push c with mode := .lineComment })
    else if c = '*' then .ok (.more { st.push c with mode := .blockComment false })
    else if regex then st.regexStep false false c
    else { st with last := some '/' }.plainStep c rest
  | .lineComment =>
    if c = '\n' then st.plainStep c rest
    else .ok (.more { st.push c with mode := .lineComment })
  | .blockComment star =>
    if star ∧ c = '/' then .ok (.more (st.push c))
    else .ok (.more { st.push c with mode := .blockComment (c == '*') })
  | .literal opening l =>
    match l.step c with
    | .inside l => .ok (.more { st.push c with mode := .literal opening l })
    | .closed => .ok (.more { st.push c with last := some opening })
    | .broken => .error (literalFault opening, st.since)
  | .regex inClass esc => st.regexStep inClass esc c
  | .flags =>
    if isIdentChar c then .ok (.more { st.push c with mode := .flags })
    else st.plainStep c rest

def finish (st : Scan) : Except Placed Unit :=
  match st.mode with
  | .literal opening _ => .error (literalFault opening, st.since)
  | .blockComment _ => .error (.unterminatedComment, st.since)
  | .regex _ _ => .error (.unterminatedRegex, st.since)
  | .slash true => .error (.unterminatedRegex, st.since)
  | _ =>
    match st.brackets with
    | [] => .ok ()
    | b :: _ => .error (.unclosed b, st.offset)

def statement (st : Scan) : List Char → Except Placed (List Char × List Char)
  | [] => do
    st.finish
    return ([], [])
  | c :: s => do
    match ← st.step c s with
    | .more st =>
      let (a, b) ← st.statement s
      return (c :: a, b)
    | .endsBefore => return ([], c :: s)
    | .endsWith => return ([c], s)

theorem statement_append {st : Scan} {s a b : List Char} (h : st.statement s = .ok (a, b)) :
    a ++ b = s := by
  induction s generalizing st a b with
  | nil =>
    cases hf : st.finish with
    | error e => simp [statement, hf, bind, Except.bind] at h
    | ok u =>
      simp only [statement, hf, bind, Except.bind, pure, Except.pure, Except.ok.injEq,
        Prod.mk.injEq] at h
      rw [← h.1, ← h.2, List.nil_append]
  | cons c s ih =>
    simp only [statement, bind, Except.bind, pure, Except.pure] at h
    cases hs : st.step c s with
    | error e => simp [hs] at h
    | ok r =>
      simp only [hs] at h
      cases r with
      | more st' =>
        cases ht : st'.statement s with
        | error e => simp [ht] at h
        | ok ab =>
          simp only [ht, Except.ok.injEq, Prod.mk.injEq] at h
          rw [← h.1, ← h.2, List.cons_append, ih ht]
      | endsBefore =>
        simp only [Except.ok.injEq, Prod.mk.injEq] at h
        rw [← h.1, ← h.2, List.nil_append]
      | endsWith =>
        simp only [Except.ok.injEq, Prod.mk.injEq] at h
        rw [← h.1, ← h.2, List.singleton_append]

/-- Only a line feed can stand after the end of a statement of which nothing was read. -/
theorem start_step_ne_endsBefore {c : Char} {rest : List Char} (hc : c ≠ '\n') :
    start.step c rest ≠ .ok .endsBefore := by
  simp only [step, start, plainStep]
  split
  · simp
  · repeat' split
    all_goals simp_all

end Scan

end StyleExports.EsModule
