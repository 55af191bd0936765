namespace StyleExports.Yaml

/-- A character and its place. The end of the text is the character NUL. -/
@[ext] structure Mark where
  char : Char
  index : Nat
  line : Nat
  column : Nat
  deriving DecidableEq, Repr

/-- The character that stands for the end. No text may hold it. -/
def endChar : Char := '\x00'

/-- Line breaks: the line feed, for which most others are exchanged, and the two separators. -/
def isBreak (c : Char) : Bool := c == '\n' || c == '\u2028' || c == '\u2029'

def isBlank (c : Char) : Bool := c == ' ' || c == '\t'

def isGap (c : Char) : Bool := isBlank c || isBreak c || c == endChar

def isLineEnd (c : Char) : Bool := isBreak c || c == endChar

def isWordChar (c : Char) : Bool := c.isAlphanum || c == '_' || c == '-'

def byteOrderMark : Char := '\ufeff'

def isAllowed (c : Char) : Bool :=
  let n := c.toNat
  n == 0x09 || n == 0x0a || n == 0x0d || (0x20 ≤ n && n ≤ 0x7e) || n == 0x85 ||
    (0xa0 ≤ n && n ≤ 0xd7ff) || (0xe000 ≤ n && n ≤ 0xfffd) || 0x10000 ≤ n

namespace Mark

def ofChars (index line column : Nat) : List Char → List Mark
  | [] => [⟨endChar, index, line, column⟩]
  | '\r' :: '\n' :: s => ⟨'\n', index, line, column⟩ :: ofChars (index + 2) (line + 1) 0 s
  | c :: s =>
    if c = '\r' ∨ c = '\n' ∨ c = '\u0085' then
      ⟨'\n', index, line, column⟩ :: ofChars (index + 1) (line + 1) 0 s
    else if isBreak c then ⟨c, index, line, column⟩ :: ofChars (index + 1) (line + 1) 0 s
    else ⟨c, index, line, column⟩ :: ofChars (index + 1) line (column + 1) s

end Mark

def marks? (s : List Char) : Option (List Mark) :=
  if s.all isAllowed then some (Mark.ofChars 0 0 0 s) else none

def peek : List Mark → Char
  | [] => endChar
  | m :: _ => m.char

def peekAt (n : Nat) (s : List Mark) : Char := peek (s.drop n)

def columnOf : List Mark → Nat
  | [] => 0
  | m :: _ => m.column

def isDocumentMark (s : List Mark) : Bool :=
  columnOf s == 0 &&
    ((s.take 3).map (·.char) == ['-', '-', '-'] || (s.take 3).map (·.char) == ['.', '.', '.']) &&
    isGap (peekAt 3 s)

end StyleExports.Yaml
