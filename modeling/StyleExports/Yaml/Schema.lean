import StyleExports.Yaml.Scalar

namespace StyleExports.Yaml

def nullTexts : List (List Char) := [[], ['~'], "null".toList, "Null".toList, "NULL".toList]

def truth? (s : List Char) : Option Bool :=
  if ["true".toList, "True".toList, "TRUE".toList].contains s then some true
  else if ["false".toList, "False".toList, "FALSE".toList].contains s then some false
  else none

/-- The number that one or more digits write in a base of at most sixteen. -/
def digits? (base : Nat) (s : List Char) : Option Nat :=
  if s.isEmpty then none
  else
    s.foldl (fun n c =>
      match n, hexValue? c with
      | some n, some d => if d < base then some (n * base + d) else none
      | _, _ => none) (some 0)

/-- Numbers with a mark of their base: unsigned ones have up to 128 bits, and signed ones too. -/
def isBased (s : List Char) : Bool :=
  let below (bound base : Nat) (s : List Char) : Bool :=
    match digits? base s with
    | some n => n < bound
    | none => false
  let marked (bound : Nat) (s : List Char) : Bool :=
    match s with
    | '0' :: 'x' :: s => below bound 16 s
    | '0' :: 'o' :: s => below bound 8 s
    | '0' :: 'b' :: s => below bound 2 s
    | _ => false
  match s with
  | '+' :: s => marked (Nat.pow 2 128) s
  | '-' :: s => marked (Nat.pow 2 127 + 1) s
  | s => marked (Nat.pow 2 128) s

def unsigned : List Char → List Char
  | '+' :: s => s
  | '-' :: s => s
  | s => s

/-- Several digits of which the first is zero: they are no number. -/
def isZeroPadded (s : List Char) : Bool :=
  match unsigned s with
  | '0' :: c :: s => (c :: s).all Char.isDigit
  | _ => false

def decimal (s : List Char) : Nat := s.foldl (fun n c => n * 10 + (c.toNat - 48)) 0

def exponent? (s : List Char) : Option Int :=
  match s with
  | [] => some 0
  | e :: s =>
    if e = 'e' ∨ e = 'E' then
      let digits := unsigned s
      if digits.isEmpty ∨ !digits.all Char.isDigit then none
      else some (if s.head? = some '-' then -(decimal digits : Int) else decimal digits)
    else none

/-- The least value that rounds to no binary number of 64 bits. -/
def overflow : Nat := Nat.pow 2 1024 - Nat.pow 2 970

/-- Whether `m` times a power of ten stays below the overflow. -/
def fits (m : Nat) (e : Int) : Bool :=
  if m = 0 then true
  else if e < 0 then m < overflow * Nat.pow 10 (min (-e).toNat (Nat.log2 m + 1))
  else e ≤ 308 && m * Nat.pow 10 e.toNat < overflow

/-- Decimal numbers: digits with a point before, between or after them, and an exponent. -/
def isDecimal (s : List Char) : Bool :=
  let s := unsigned s
  let whole := s.takeWhile Char.isDigit
  let s := s.dropWhile Char.isDigit
  let (part, s) : List Char × List Char :=
    match s with
    | '.' :: s => (s.takeWhile Char.isDigit, s.dropWhile Char.isDigit)
    | s => ([], s)
  match exponent? s with
  | none => false
  | some e => !(whole ++ part).isEmpty && fits (decimal (whole ++ part)) (e - part.length)

def isSpecialNumber (s : List Char) : Bool :=
  [".inf".toList, ".Inf".toList, ".INF".toList].contains (unsigned s) ||
    [".nan".toList, ".NaN".toList, ".NAN".toList].contains s

def isPlainText (s : List Char) : Bool :=
  !(nullTexts.contains s || (truth? s).isSome || isBased s || isSpecialNumber s ||
    (!isZeroPadded s && isDecimal s))

end StyleExports.Yaml
