import StyleExports.Text.Cut

namespace StyleExports.Text

/-- A word stands for its number. -/
instance coeWord : Coe UInt32 Nat := ⟨UInt32.toNat⟩

/-- A place in a text. Line and column count from one, modulo `2 ^ 32`. -/
@[ext] structure Position where
  offset : Nat
  line : UInt32
  column : UInt32
  deriving DecidableEq, Repr, Inhabited

@[ext] structure Span where
  start : Position
  stop : Position
  deriving DecidableEq, Repr, Inhabited

namespace Position

/-- One more than the line feeds before a place. -/
def lineAfter (before : List Char) : UInt32 := .ofNat (before.count '\n') + 1

/-- One more than the characters since the last line feed. -/
def columnAfter : List Char → UInt32 → UInt32
  | [], n => n
  | c :: s, n => columnAfter s (if c = '\n' then 1 else n + 1)

def after (before : List Char) : Position :=
  ⟨size before, lineAfter before, columnAfter before 1⟩

/-- The position at a byte offset; an offset past the end stands for the end. -/
def ofOffset (s : List Char) (offset : Nat) : Position := after (takeSize offset s)

theorem columnAfter_append (s t : List Char) (n : UInt32) :
    columnAfter (s ++ t) n = columnAfter t (columnAfter s n) := by
  induction s generalizing n with
  | nil => rfl
  | cons c s ih => exact ih _

/-- Stepping over a character adds one to the column, or begins a line. -/
theorem after_concat (s : List Char) (c : Char) :
    after (s ++ [c]) =
      ⟨(after s).offset + c.utf8Size, (after s).line + (if c = '\n' then 1 else 0),
        if c = '\n' then 1 else (after s).column + 1⟩ := by
  by_cases h : c = '\n' <;>
    simp [after, lineAfter, columnAfter_append, columnAfter, h, UInt32.ofNat_add]

def render (p : Position) : String := toString p.line ++ ":" ++ toString p.column

end Position

namespace Span

def between (s : List Char) (start stop : Nat) : Span := ⟨.ofOffset s start, .ofOffset s stop⟩

/-- The size in bytes of the character that follows an offset; none follows the end. -/
def charSize (s : List Char) (offset : Nat) : Nat :=
  match s.drop (takeSize offset s).length with
  | [] => 0
  | c :: _ => c.utf8Size

/-- The span of the one character at an offset, empty at the end of the text. -/
def charAt (s : List Char) (offset : Nat) : Span := between s offset (offset + charSize s offset)

def length (p : Span) : Nat := p.stop.offset - p.start.offset

def isEmpty (p : Span) : Bool := p.length == 0

/-- A span within one line names the line once. -/
def render (p : Span) : String :=
  if p.start.line = p.stop.line then
    p.start.render ++ "-" ++ toString p.stop.column
  else p.start.render ++ "-" ++ p.stop.render

end Span

end StyleExports.Text
