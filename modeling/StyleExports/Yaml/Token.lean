import StyleExports.Yaml.Scalar

namespace StyleExports.Yaml

/-- The tokens of YAML: those that stand in the text, and those that indentation makes. -/
inductive Token where
  | streamEnd
  | version (major minor : Nat)
  | tagHandle (handle meaning : List Char)
  | documentStart
  | documentEnd
  | blockListStart
  | blockMapStart
  | blockEnd
  | flowListStart
  | flowListEnd
  | flowMapStart
  | flowMapEnd
  | blockEntry
  | flowEntry
  | key
  | value
  | reference (name : List Char)
  | anchor (name : List Char)
  | tag (handle suffix : List Char)
  | scalar (text : List Char) (style : Style)
  deriving DecidableEq, Repr

def spanMarks (p : Char → Bool) (s : List Mark) : List Char × List Mark :=
  ((s.takeWhile (p ·.char)).map (·.char), s.dropWhile (p ·.char))

/-- The rest of a line that may hold blanks and a comment only, from the next line on. -/
def restOfLine? (s : List Mark) : Option (List Mark) :=
  let s := s.dropWhile (isBlank ·.char)
  let s := if peek s = '#' then s.dropWhile (fun m => !isLineEnd m.char) else s
  if !isLineEnd (peek s) then none
  else if isBreak (peek s) then some s.tail
  else some s

def anchorName? (s : List Mark) : Option (List Char × List Mark) :=
  let (name, s) := spanMarks isWordChar s
  if !name.isEmpty && (isGap (peek s) || peek s ∈ ['?', ':', ',', ']', '}', '%', '@', '`']) then
    some (name, s)
  else none

def isUriChar (verbatim : Bool) (c : Char) : Bool :=
  isWordChar c ||
    c ∈ [';', '/', '?', ':', '@', '&', '=', '+', '$', '.', '!', '~', '*', '\'', '(', ')'] ||
    (verbatim && (c == ',' || c == '[' || c == ']'))

def uriByte? : List Mark → Option (Nat × List Mark)
  | p :: a :: b :: s =>
    if p.char = '%' then
      match hexValue? a.char, hexValue? b.char with
      | some a, some b => some (a * 16 + b, s)
      | _, _ => none
    else none
  | _ => none

/-- The number of further bytes after the first byte of a character, and the bits it gives. -/
def leadingByte? (n : Nat) : Option (Nat × Nat) :=
  if n < 0x80 then some (0, n)
  else if 0xc0 ≤ n ∧ n < 0xe0 then some (1, n - 0xc0)
  else if 0xe0 ≤ n ∧ n < 0xf0 then some (2, n - 0xe0)
  else if 0xf0 ≤ n ∧ n < 0xf8 then some (3, n - 0xf0)
  else none

def trailingBytes? : Nat → Nat → List Mark → Option (Nat × List Mark)
  | 0, value, s => some (value, s)
  | n + 1, value, s =>
    match uriByte? s with
    | some (b, s) =>
      if 0x80 ≤ b ∧ b < 0xc0 then trailingBytes? n (value * 64 + (b - 0x80)) s else none
    | none => none

def uriEscape? (s : List Mark) : Option (Char × List Mark) := do
  let (b, s) ← uriByte? s
  let (n, value) ← leadingByte? b
  let (value, s) ← trailingBytes? n value s
  return (Char.ofNat value, s)

/-- The characters of a tag up to one that none may hold; at most as many as there are marks. -/
def uri? (verbatim : Bool) : Nat → List Mark → Option (List Char × List Mark)
  | 0, s => some ([], s)
  | n + 1, s =>
    match s with
    | [] => some ([], [])
    | m :: t =>
      if m.char = '%' then do
        let (c, s) ← uriEscape? s
        let (cs, s) ← uri? verbatim n s
        return (c :: cs, s)
      else if isUriChar verbatim m.char then do
        let (cs, s) ← uri? verbatim n t
        return (m.char :: cs, s)
      else some ([], s)

/-- A tag handle: a word between exclamation marks, of which the second may be missing. -/
def tagHandle (s : List Mark) : List Char × List Mark :=
  let (word, rest) := spanMarks isWordChar s.tail
  if peek rest = '!' then ('!' :: (word ++ ['!']), rest.tail) else ('!' :: word, rest)

/-- Whether what was read as a handle is one: it ends with a second exclamation mark. -/
def isHandle (h : List Char) : Bool := 1 < h.length && h.getLast? == some '!'

def verbatimTag? (s : List Mark) : Option (Token × List Mark) := do
  let (suffix, s) ← uri? true s.length (s.drop 2)
  if suffix.isEmpty || peek s != '>' then none
  return (.tag [] suffix, s.tail)

/-- A tag that consists of a handle and a suffix. A single exclamation mark is a tag too. -/
def shortTag? (s : List Mark) : Option (Token × List Mark) := do
  let (handle, rest) := tagHandle s
  let (suffix, rest) ← uri? false rest.length rest
  if isHandle handle then
    if suffix.isEmpty then none
    return (.tag handle suffix, rest)
  let suffix := handle.tail ++ suffix
  return (if suffix.isEmpty then .tag [] ['!'] else .tag ['!'] suffix, rest)

def tag? (inFlow : Bool) (s : List Mark) : Option (Token × List Mark) := do
  let (t, rest) ← if peekAt 1 s = '<' then verbatimTag? s else shortTag? s
  if isGap (peek rest) || (inFlow && peek rest == ',') then return (t, rest) else none

def versionNumber? (s : List Mark) : Option (Nat × List Mark) :=
  let (digits, s) := spanMarks Char.isDigit s
  if digits.isEmpty || 9 < digits.length then none
  else some (digits.foldl (fun n c => n * 10 + (c.toNat - 48)) 0, s)

def directive? (s : List Mark) : Option (Token × List Mark) := do
  let (name, s) := spanMarks isWordChar s.tail
  if name.isEmpty || !isGap (peek s) then none
  let s := s.dropWhile (isBlank ·.char)
  if name = ['Y', 'A', 'M', 'L'] then
    let (major, s) ← versionNumber? s
    if peek s ≠ '.' then none
    let (minor, s) ← versionNumber? s.tail
    let s ← restOfLine? s
    return (.version major minor, s)
  else if name = ['T', 'A', 'G'] then
    if peek s ≠ '!' then none
    let (handle, s) := tagHandle s
    if !(handle = ['!'] || isHandle handle) || !isBlank (peek s) then none
    let s := s.dropWhile (isBlank ·.char)
    let (meaning, s) ← uri? true s.length s
    if meaning.isEmpty || !isGap (peek s) then none
    let s ← restOfLine? s
    return (.tagHandle handle meaning, s)
  else none

/-- The indicators behind the sign of a block scalar: what becomes of breaks at its end, and how
much deeper than the text around it its lines are, if that is said. -/
def blockHeader? (s : List Mark) : Option (Chomp × Nat × List Mark) :=
  let chomp? (c : Char) : Option Chomp :=
    if c = '+' then some .keep else if c = '-' then some .strip else none
  let digit? (c : Char) : Option Nat := if c.isDigit then some (c.toNat - 48) else none
  match chomp? (peek s) with
  | some chomp =>
    match digit? (peekAt 1 s) with
    | some 0 => none
    | some n => some (chomp, n, s.drop 2)
    | none => some (chomp, 0, s.tail)
  | none =>
    match digit? (peek s) with
    | some 0 => none
    | some n =>
      match chomp? (peekAt 1 s) with
      | some chomp => some (chomp, n, s.drop 2)
      | none => some (.clip, n, s.tail)
    | none => some (.clip, 0, s)

def block? (literal : Bool) (around : Int) (s : List Mark) : Option (Token × List Mark) := do
  let (chomp, deeper, s) ← blockHeader? s.tail
  let s ← restOfLine? s
  let indent := if deeper = 0 then 0 else (max around 0).toNat + deeper
  let (text, s) ← blockScalar literal chomp around (.start indent) s
  return (.scalar text (if literal then .literal else .folded), s)

end StyleExports.Yaml
