import StyleExports.Yaml.Mark

namespace StyleExports.Yaml

/-- How a scalar is written, as far as its meaning depends on it. -/
inductive Style where
  | plain
  | quoted
  | literal
  | folded
  deriving DecidableEq, Repr

/-- Blanks and breaks that wait until more text shows that they belong to a scalar. One break is a
space, and of several the first goes. -/
@[ext] structure Gap where
  blanks : List Char
  broken : Bool
  /-- The first break, unless it was escaped. -/
  first : List Char
  more : List Char
  deriving DecidableEq, Repr

namespace Gap

def empty : Gap := ⟨[], false, [], []⟩

/-- A break that was escaped: it leaves nothing. -/
def escaped : Gap := ⟨[], true, [], []⟩

def isEmpty (g : Gap) : Bool := g.blanks.isEmpty && !g.broken

/-- One more blank. After a break, blanks only indent. -/
def addBlank (g : Gap) (c : Char) : Gap :=
  if g.broken then g else { g with blanks := g.blanks ++ [c] }

def addBreak (g : Gap) (c : Char) : Gap :=
  if g.broken then { g with more := g.more ++ [c] } else ⟨[], true, [c], []⟩

def fold (g : Gap) : List Char :=
  if g.broken then
    if g.first = ['\n'] then (if g.more = [] then [' '] else g.more) else g.first ++ g.more
  else g.blanks

end Gap

/-- Whether a character ends a plain scalar. In flow context the indicators of flow do. -/
def endsPlain (inFlow : Bool) (c next : Char) : Bool :=
  (c == ':' && isGap next) ||
    (inFlow && (c == ',' || c == '[' || c == ']' || c == '{' || c == '}'))

/-- Whether a colon in flow context stands where none may stand. -/
def isBadColon (inFlow : Bool) (c next : Char) : Bool :=
  inFlow && c == ':' && (next == ',' || next == '?' || next == '[' || next == ']' ||
    next == '{' || next == '}')

/-- Read a plain scalar whose lines are indented by at least `indent`. `text` is read so far, last
character first, and `g` waits. The answer is the text, whether breaks follow it, and the rest. -/
def plainScalar (inFlow : Bool) (indent : Int) (text : List Char) (g : Gap) :
    List Mark → Option (List Char × Bool × List Mark)
  | [] => some (text.reverse, g.broken, [])
  | m :: s =>
    let c := m.char
    if isBlank c then
      if g.broken ∧ m.column < indent ∧ c = '\t' then none
      else plainScalar inFlow indent text (g.addBlank c) s
    else if isBreak c then plainScalar inFlow indent text (g.addBreak c) s
    else if c = endChar then some (text.reverse, g.broken, m :: s)
    else if
        !g.isEmpty && ((!inFlow && m.column < indent) || isDocumentMark (m :: s) || c == '#') then
      some (text.reverse, g.broken, m :: s)
    else if isBadColon inFlow c (peek s) then none
    else if endsPlain inFlow c (peek s) then some (text.reverse, g.broken, m :: s)
    else plainScalar inFlow indent (c :: (g.fold.reverse ++ text)) .empty s

def escapedChar? (c : Char) : Option Char :=
  match c with
  | '0' => some '\x00'
  | 'a' => some '\x07'
  | 'b' => some '\x08'
  | 't' => some '\t'
  | '\t' => some '\t'
  | 'n' => some '\n'
  | 'v' => some '\x0b'
  | 'f' => some '\x0c'
  | 'r' => some '\r'
  | 'e' => some '\x1b'
  | ' ' => some ' '
  | '"' => some '"'
  | '/' => some '/'
  | '\\' => some '\\'
  | 'N' => some '\u0085'
  | '_' => some '\u00a0'
  | 'L' => some '\u2028'
  | 'P' => some '\u2029'
  | _ => none

/-- The number of hexadecimal digits after a letter that follows a backslash. -/
def codeLength? (c : Char) : Option Nat :=
  match c with
  | 'x' => some 2
  | 'u' => some 4
  | 'U' => some 8
  | _ => none

def hexValue? (c : Char) : Option Nat :=
  if c.isDigit then some (c.toNat - 48)
  else if 'a' ≤ c ∧ c ≤ 'f' then some (c.toNat - 87)
  else if 'A' ≤ c ∧ c ≤ 'F' then some (c.toNat - 55)
  else none

def charOf? (n : Nat) : Option Char := if n.isValidChar then some (Char.ofNat n) else none

inductive Expect where
  | text
  | letter
  /-- So many more hexadecimal digits of a number, of which the part so far is known. -/
  | digits (left value : Nat)
  /-- The second of two single quotation marks. -/
  | secondQuote
  deriving DecidableEq, Repr

/-- Read a quoted scalar behind its opening mark. `text` is read so far, last character first, and
`g` waits. -/
def quotedScalar (single : Bool) : Expect → List Char → Gap → List Mark →
    Option (List Char × List Mark)
  | _, _, _, [] => none
  | .letter, text, g, m :: s =>
    let c := m.char
    if isBreak c then quotedScalar single .text text .escaped s
    else
      match escapedChar? c, codeLength? c with
      | some d, _ => quotedScalar single .text (d :: text) g s
      | none, some n => quotedScalar single (.digits n 0) text g s
      | none, none => none
  | .digits left value, text, g, m :: s =>
    match hexValue? m.char with
    | none => none
    | some d =>
      let value := value * 16 + d
      if left ≤ 1 then
        match charOf? value with
        | none => none
        | some c => quotedScalar single .text (c :: text) g s
      else quotedScalar single (.digits (left - 1) value) text g s
  | .secondQuote, text, g, _ :: s => quotedScalar single .text ('\'' :: text) g s
  | .text, text, g, m :: s =>
    let c := m.char
    if isBlank c then quotedScalar single .text text (g.addBlank c) s
    else if isBreak c then quotedScalar single .text text (g.addBreak c) s
    else if c = endChar then none
    else
      let text := g.fold.reverse ++ text
      if single then
        if c = '\'' then
          if peek s = '\'' then quotedScalar single .secondQuote text .empty s
          else some (text.reverse, s)
        else if isDocumentMark (m :: s) then none
        else quotedScalar single .text (c :: text) .empty s
      else if c = '"' then some (text.reverse, s)
      else if isDocumentMark (m :: s) then none
      else if c = '\\' then quotedScalar single .letter text .empty s
      else quotedScalar single .text (c :: text) .empty s

/-- What becomes of the breaks at the end of a block scalar. -/
inductive Chomp where
  | strip
  | clip
  | keep
  deriving DecidableEq, Repr

@[ext] structure BlockRead where
  /-- Whether the text of a line is being read, and not the indentation of one. -/
  inLine : Bool
  /-- The indentation of the lines; zero as long as it is not known. -/
  indent : Nat
  /-- The deepest indentation of the lines that hold nothing else. -/
  deepest : Nat
  /-- The text, last character first. -/
  text : List Char
  first : List Char
  more : List Char
  /-- Whether the last line began with a blank. -/
  blankLine : Bool
  deriving DecidableEq, Repr

namespace BlockRead

def start (indent : Nat) : BlockRead := ⟨false, indent, 0, [], [], [], false⟩

/-- Begin a line with a character. In a folded scalar the break before it becomes a space, unless
one of the two lines begins with a blank. -/
def beginLine (literal : Bool) (b : BlockRead) (c : Char) : BlockRead :=
  let fold := !literal && b.first == ['\n'] && !b.blankLine && !isBlank c
  let joint := if fold then (if b.more = [] then [' '] else b.more) else b.first ++ b.more
  { b with
    inLine := true, text := c :: (joint.reverse ++ b.text), first := [], more := [],
    blankLine := isBlank c }

def finish (chomp : Chomp) (b : BlockRead) : List Char :=
  match chomp with
  | .strip => b.text.reverse
  | .clip => b.text.reverse ++ b.first
  | .keep => b.text.reverse ++ b.first ++ b.more

/-- The indentation is that of the first line, but deeper than what is around it. -/
def settle (around : Int) (b : BlockRead) (column : Nat) : BlockRead :=
  let deepest := max b.deepest column
  if b.indent = 0 then
    { b with indent := max (max deepest (around + 1).toNat) 1, deepest := deepest }
  else { b with deepest := deepest }

end BlockRead

/-- Read the lines of a block scalar; `around` is the indentation around it. -/
def blockScalar (literal : Bool) (chomp : Chomp) (around : Int) (b : BlockRead) :
    List Mark → Option (List Char × List Mark)
  | [] => some (b.finish chomp, [])
  | m :: s =>
    let c := m.char
    if b.inLine then
      if isBreak c then blockScalar literal chomp around { b with inLine := false, first := [c] } s
      else if c = endChar then some (b.finish chomp, m :: s)
      else blockScalar literal chomp around { b with text := c :: b.text } s
    else if c = ' ' ∧ (b.indent = 0 ∨ m.column < b.indent) then
      blockScalar literal chomp around b s
    else if c = '\t' ∧ (b.indent = 0 ∨ m.column < b.indent) then none
    else if isBreak c then
      blockScalar literal chomp around
        { b with more := b.more ++ [c], deepest := max b.deepest m.column } s
    else
      let b := b.settle around m.column
      if m.column = b.indent ∧ c ≠ endChar then
        blockScalar literal chomp around (b.beginLine literal c) s
      else some (b.finish chomp, m :: s)

end StyleExports.Yaml
