namespace StyleExports.Glob

/-- A set of bytes: the given closed ranges, or everything else. -/
@[ext] structure ByteSet where
  negated : Bool
  ranges : List (Nat × Nat)
  deriving DecidableEq, Repr

namespace ByteSet

def contains (p : ByteSet) (b : UInt8) : Bool :=
  p.negated != p.ranges.any fun r => r.1 ≤ b.toNat && b.toNat ≤ r.2

def all : ByteSet := ⟨true, []⟩

def single (n : Nat) : ByteSet := ⟨false, [(n, n)]⟩

def noSlash : ByteSet := ⟨true, [(0x2f, 0x2f)]⟩

end ByteSet

inductive Matcher where
  | nothing
  | one (p : ByteSet)
  | many (p : ByteSet)
  | seq (a b : Matcher)
  | alt (a b : Matcher)
  deriving DecidableEq, Repr

namespace Matcher

def manyRests (p : ByteSet) : List UInt8 → List (List UInt8)
  | [] => [[]]
  | b :: s => (b :: s) :: if p.contains b then manyRests p s else []

/-- What can be left of a text after the expression. Paths are matched as bytes, so a set never
stands for a whole character beyond ASCII. -/
def rests : Matcher → List UInt8 → List (List UInt8)
  | .nothing, s => [s]
  | .one p, s =>
    match s with
    | [] => []
    | b :: s => if p.contains b then [s] else []
  | .many p, s => manyRests p s
  | .seq a b, s => (a.rests s).flatMap b.rests
  | .alt a b, s => a.rests s ++ b.rests s

def isMatch (m : Matcher) (s : List UInt8) : Bool := (m.rests s).contains []

def seqAll (ms : List Matcher) : Matcher := ms.foldr .seq .nothing

def slash : Matcher := .one (.single 0x2f)

end Matcher

end StyleExports.Glob
