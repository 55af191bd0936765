import StyleExports.Text.Blank

namespace StyleExports.EsModule

inductive Frame where
  | quoted (quote : Char)
  | template
  /-- A substitution with so many open braces. -/
  | substitution (braces : Nat)
  deriving DecidableEq, Repr

/-- What the last character announced. -/
inductive Pending where
  | none
  | escape
  /-- After a dollar sign: a brace would open a substitution. -/
  | dollar
  deriving DecidableEq, Repr

/-- The inside of a literal: its innermost level, the levels around it, and what is pending. -/
@[ext] structure Literal where
  top : Frame
  outer : List Frame
  pending : Pending
  deriving DecidableEq, Repr

namespace Literal

inductive Step where
  | inside (l : Literal)
  | closed
  /-- A line feed stands in a string. -/
  | broken
  deriving DecidableEq, Repr

def open? (c : Char) : Option Literal :=
  if c = '"' ∨ c = '\'' then some ⟨.quoted c, [], .none⟩
  else if c = '`' then some ⟨.template, [], .none⟩
  else none

def stay (l : Literal) (pending : Pending) : Step := .inside { l with pending := pending }

def leave (l : Literal) : Step :=
  match l.outer with
  | [] => .closed
  | f :: fs => .inside ⟨f, fs, .none⟩

def enter (l : Literal) (f : Frame) : Step := .inside ⟨f, l.top :: l.outer, .none⟩

def substitutionStep (l : Literal) (braces : Nat) (c : Char) : Step :=
  if c = '"' ∨ c = '\'' then l.enter (.quoted c)
  else if c = '`' then l.enter .template
  else if c = '{' then .inside { l with top := .substitution (braces + 1) }
  else if c = '}' then
    if braces ≤ 1 then l.leave else .inside { l with top := .substitution (braces - 1) }
  else .inside l

def step (l : Literal) (c : Char) : Step :=
  if l.pending = .escape then l.stay .none
  else
    match l.top with
    | .quoted q =>
      if c = '\\' then l.stay .escape
      else if c = '\n' then .broken
      else if c = q then l.leave
      else .inside l
    | .template =>
      if c = '\\' then l.stay .escape
      else if c = '`' then l.leave
      else if c = '$' then l.stay .dollar
      else if c = '{' ∧ l.pending = .dollar then
        l.enter (.substitution 1)
      else l.stay .none
    | .substitution braces => l.substitutionStep braces c

end Literal

/-- The characters of identifiers. Only ASCII ones are known to be such. -/
def isIdentChar (c : Char) : Bool := c.isAlphanum || c == '_' || c == '$'

end StyleExports.EsModule
