import StyleExports.Yaml.Token

namespace StyleExports.Yaml

@[ext] structure KeyPlace where
  /-- Whether nothing but a key can begin there. -/
  required : Bool
  /-- The number of tokens in front of it. -/
  position : Nat
  index : Nat
  line : Nat
  column : Nat
  deriving DecidableEq, Repr

/-- The tokens of a text are read with the places where a key may have begun: a colon on the same
line turns what follows such a place into a key. In block context, indentation opens and closes
collections. -/
@[ext] structure Lexer where
  /-- The tokens so far, last one first. -/
  tokens : List Token
  /-- The indentation of the current block, and of those around it. -/
  indent : Int
  outer : List Int
  keyAllowed : Bool
  /-- The place where a key may have begun in the current flow context or in the block, and in the
  contexts around it. -/
  key : Option KeyPlace
  outerKeys : List (Option KeyPlace)
  deriving DecidableEq, Repr

namespace Lexer

def start : Lexer := ⟨[], -1, [], true, none, []⟩

def inFlow (x : Lexer) : Bool := !x.outerKeys.isEmpty

def emit (x : Lexer) (t : Token) : Lexer := { x with tokens := t :: x.tokens }

/-- Put a token behind the first `n`. -/
def emitAt (x : Lexer) (n : Nat) (t : Token) : Lexer :=
  let later := x.tokens.take (x.tokens.length - n)
  { x with tokens := later ++ t :: x.tokens.drop (x.tokens.length - n) }

/-- Forget the place where a key may have begun. A required key must have come. -/
def dropKey? (x : Lexer) : Option Lexer :=
  match x.key with
  | some k => if k.required then none else some { x with key := none }
  | none => some x

/-- Remember this place, if a key may begin here. -/
def saveKey? (x : Lexer) (s : List Mark) : Option Lexer :=
  if x.keyAllowed then
    match s with
    | [] => some x
    | m :: _ =>
      let required := !x.inFlow && x.indent == m.column
      let k : KeyPlace := ⟨required, x.tokens.length, m.index, m.line, m.column⟩
      x.dropKey?.map fun x => { x with key := some k }
  else some x

/-- Open a block collection that begins at a column, unless it is open; its token is put behind
the first `n`. -/
def roll (x : Lexer) (column : Nat) (n : Nat) (t : Token) : Lexer :=
  if x.inFlow then x
  else if x.indent < column then
    { x with indent := column, outer := x.indent :: x.outer }.emitAt n t
  else x

def unrollTo (column : Int) : List Int → Int → List Token → List Token × Int × List Int
  | [], indent, ts => (ts, indent, [])
  | i :: outer, indent, ts =>
    if column < indent then unrollTo column outer i (.blockEnd :: ts) else (ts, indent, i :: outer)

/-- Close the block collections that began behind a column. -/
def unroll (x : Lexer) (column : Int) : Lexer :=
  if x.inFlow then x
  else
    let (tokens, indent, outer) := unrollTo column x.outer x.indent x.tokens
    { x with tokens := tokens, indent := indent, outer := outer }

/-- Skip blanks, comments and breaks; in a block a key may begin on a new line. Tabs do not count
as indentation. -/
def skip (inFlow : Bool) : Bool → Bool → List Mark → List Mark × Bool
  | _, allowed, [] => ([], allowed)
  | inComment, allowed, m :: s =>
    let c := m.char
    if isBreak c then skip inFlow false (allowed || !inFlow) s
    else if inComment then
      if c = endChar then (m :: s, allowed) else skip inFlow true allowed s
    else if c = ' ' ∨ (c = '\t' ∧ (inFlow || !allowed)) ∨ (c = byteOrderMark ∧ m.column = 0) then
      skip inFlow false allowed s
    else if c = '#' then skip inFlow true allowed s
    else (m :: s, allowed)

/-- Whether the place of a key still counts: keys do not span lines and are not long. -/
def isNear (k : KeyPlace) (m : Mark) : Bool := k.line == m.line && m.index ≤ k.index + 1024

/-- Read a colon. It makes a key of what follows the remembered place; without one it is the colon
of an empty or a complex key. -/
def value? (x : Lexer) (m : Mark) : Option Lexer :=
  let complex : Option Lexer :=
    if x.inFlow then some { x with keyAllowed := false }
    else if x.keyAllowed then
      let y := x.roll m.column x.tokens.length .blockMapStart
      some { y with keyAllowed := true }
    else none
  let found : Option Lexer :=
    match x.key with
    | none => complex
    | some k =>
      if isNear k m then
        let y := (x.emitAt k.position .key).roll k.column k.position .blockMapStart
        some { y with key := none, keyAllowed := false }
      else if k.required then none
      else complex.map fun x => { x with key := none }
  found.map (·.emit .value)

def entryAt? (x : Lexer) (m : Mark) : Option Lexer :=
  if x.inFlow then (x.dropKey?).map fun x => { x with keyAllowed := true }.emit .blockEntry
  else if x.keyAllowed then
    (x.roll m.column x.tokens.length .blockListStart).dropKey?.map fun x =>
      { x with keyAllowed := true }.emit .blockEntry
  else none

def complexKey? (x : Lexer) (m : Mark) : Option Lexer :=
  if x.inFlow then (x.dropKey?).map fun x => { x with keyAllowed := false }.emit .key
  else if x.keyAllowed then
    (x.roll m.column x.tokens.length .blockMapStart).dropKey?.map fun x =>
      { x with keyAllowed := true }.emit .key
  else none

def open? (x : Lexer) (s : List Mark) (t : Token) : Option Lexer :=
  (x.saveKey? s).map fun x =>
    { x with key := none, outerKeys := x.key :: x.outerKeys, keyAllowed := true }.emit t

/-- Read a bracket that closes a flow collection. Outside of them it is left to the grammar. -/
def close? (x : Lexer) (t : Token) : Option Lexer :=
  x.dropKey?.map fun x =>
    match x.outerKeys with
    | k :: ks => { x with key := k, outerKeys := ks, keyAllowed := false }.emit t
    | [] => { x with keyAllowed := false }.emit t

/-- Begin something that is not part of a block: all blocks end, and no key may begin. -/
def reset? (x : Lexer) : Option Lexer :=
  (x.unroll (-1)).dropKey?.map fun x => { x with keyAllowed := false }

def content? (x : Lexer) (s : List Mark) (r : Option (Token × List Mark)) :
    Option (Lexer × List Mark) := do
  let x ← x.saveKey? s
  let (t, rest) ← r
  return ({ x with keyAllowed := false }.emit t, rest)

def startsPlain (inFlow : Bool) (c next : Char) : Bool :=
  !(isGap c || c ∈ ['-', '?', ':', ',', '[', ']', '{', '}', '#', '&', '*', '!', '|', '>', '\'',
      '"', '%', '@', '`']) ||
    (c == '-' && !isBlank next) || (!inFlow && (c == '?' || c == ':') && !isGap next)

/-- Read a plain scalar. If breaks follow it, a key may begin behind them. -/
def plain? (x : Lexer) (s : List Mark) : Option (Lexer × List Mark) := do
  let x ← x.saveKey? s
  let (text, broken, rest) ← plainScalar x.inFlow (x.indent + 1) [] .empty s
  return ({ x with keyAllowed := broken }.emit (.scalar text .plain), rest)

def quoted? (x : Lexer) (single : Bool) (s : List Mark) : Option (Lexer × List Mark) :=
  x.content? s ((quotedScalar single .text [] .empty s.tail).map fun (text, rest) =>
    (.scalar text .quoted, rest))

def block? (x : Lexer) (literal : Bool) (s : List Mark) : Option (Lexer × List Mark) := do
  let x ← x.dropKey?
  let (t, rest) ← Yaml.block? literal x.indent s
  return ({ x with keyAllowed := true }.emit t, rest)

def token? (x : Lexer) (m : Mark) (s : List Mark) : Option (Lexer × List Mark) :=
  let all := m :: s
  let c := m.char
  let next := peek s
  if c = '%' ∧ m.column = 0 then do
    let x ← x.reset?
    let (t, rest) ← directive? all
    return (x.emit t, rest)
  else if isDocumentMark all then
    x.reset?.map fun x => (x.emit (if c = '-' then .documentStart else .documentEnd), all.drop 3)
  else if c = '[' then (x.open? all .flowListStart).map (·, s)
  else if c = '{' then (x.open? all .flowMapStart).map (·, s)
  else if c = ']' then (x.close? .flowListEnd).map (·, s)
  else if c = '}' then (x.close? .flowMapEnd).map (·, s)
  else if c = ',' then x.dropKey?.map fun x => ({ x with keyAllowed := true }.emit .flowEntry, s)
  else if c = '-' ∧ isGap next then (x.entryAt? m).map (·, s)
  else if c = '?' ∧ (x.inFlow ∨ isGap next) then (x.complexKey? m).map (·, s)
  else if c = ':' ∧ (x.inFlow ∨ isGap next) then (x.value? m).map (·, s)
  else if c = '*' then
    x.content? all ((anchorName? s).map fun (name, rest) => (.reference name, rest))
  else if c = '&' then
    x.content? all ((anchorName? s).map fun (name, rest) => (.anchor name, rest))
  else if c = '!' then x.content? all (tag? x.inFlow all)
  else if c = '|' ∧ x.inFlow = false then x.block? true all
  else if c = '>' ∧ x.inFlow = false then x.block? false all
  else if c = '\'' then x.quoted? true all
  else if c = '"' then x.quoted? false all
  else if startsPlain x.inFlow c next then x.plain? all
  else none

def run? : Nat → Lexer → List Mark → Option (List Token)
  | 0, _, _ => none
  | n + 1, x, s =>
    let (s, allowed) := skip x.inFlow false x.keyAllowed s
    let x := { x with keyAllowed := allowed }
    match s with
    | [] => none
    | m :: s =>
      if m.char = endChar then
        (x.reset?).map fun x => (Token.streamEnd :: x.tokens).reverse
      else
        match (x.unroll m.column).token? m s with
        | some (x, s) => run? n x s
        | none => none

end Lexer

/-- The tokens of a text. Every token takes at least one character. -/
def tokens? (s : List Char) : Option (List Token) := do
  let ms ← marks? s
  Lexer.run? ms.length .start ms

end StyleExports.Yaml
