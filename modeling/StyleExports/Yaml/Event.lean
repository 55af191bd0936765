import StyleExports.Yaml.Lexer

namespace StyleExports.Yaml

/-- A scalar with its tag, if it has one that matters. -/
@[ext] structure Scalar where
  text : List Char
  style : Style
  tag : Option (List Char)
  deriving DecidableEq, Repr

/-- An event; aliases are given by `α`. -/
inductive Event (α : Type) where
  | scalar (anchor : Option (List Char)) (s : Scalar)
  | reference (a : α)
  | listStart (anchor tag : Option (List Char))
  | listEnd
  | mapStart (anchor tag : Option (List Char))
  | mapEnd
  deriving DecidableEq, Repr

abbrev NamedEvent := Event (List Char)

/-- What the grammar expects next. It is run with a stack of these, and what a document leaves out
becomes an empty scalar. -/
inductive Expected where
  | blockListEntry
  /-- An entry of a list that is not indented more than the key in front of it. -/
  | looseEntry
  | blockMapKey
  | blockMapValue
  | flowListEntry (first : Bool)
  /-- The key, the value and the end of a map of one pair in a flow list. -/
  | pairKey
  | pairValue
  | pairEnd
  | flowMapKey (first : Bool)
  | flowMapValue
  /-- The value of a key that no indicator marks as one. -/
  | flowMapNoValue
  deriving DecidableEq, Repr

/-- The events of a step, what is expected next, and the tokens that are left. -/
abbrev Step := List NamedEvent × List Expected × List Token

abbrev Handles := List (List Char × List Char)

def standardHandles : Handles :=
  [(['!'], ['!']), (['!', '!'], "tag:yaml.org,2002:".toList)]

def emptyScalar : NamedEvent := .scalar none ⟨[], .plain, none⟩

def startsWith (ts : List Token) (stops : List Token) : Bool :=
  match ts with
  | t :: _ => stops.contains t
  | [] => false

def wholeTag? (handles : Handles) (handle suffix : List Char) : Option (List Char) :=
  if handle.isEmpty then some suffix
  else (handles.lookup handle).map (· ++ suffix)

@[ext] structure Props where
  anchor : Option (List Char)
  tag : Option (List Char)
  deriving DecidableEq, Repr

/-- The anchor and the tag in front of a node, in either order. -/
def props? (handles : Handles) : List Token → Option (Props × List Token)
  | .anchor a :: .tag h s :: ts => (wholeTag? handles h s).map fun t => (⟨some a, some t⟩, ts)
  | .anchor a :: ts => some (⟨some a, none⟩, ts)
  | .tag h s :: .anchor a :: ts => (wholeTag? handles h s).map fun t => (⟨some a, some t⟩, ts)
  | .tag h s :: ts => (wholeTag? handles h s).map fun t => (⟨none, some t⟩, ts)
  | ts => some (⟨none, none⟩, ts)

/-- The tag of a scalar; a single exclamation mark says nothing about one. -/
def scalarTag (tag : Option (List Char)) : Option (List Char) :=
  if tag = some ['!'] then none else tag

/-- Read a node or its beginning. Block collections begin in block context only, and a list may
follow a key without indentation. -/
def node? (handles : Handles) (block loose : Bool) (ts : List Token) : Option Step :=
  match ts with
  | .reference name :: ts => some ([.reference name], [], ts)
  | _ =>
    match props? handles ts with
    | none => none
    | some (p, ts) =>
      match ts with
      | .scalar text style :: ts => some ([.scalar p.anchor ⟨text, style, scalarTag p.tag⟩], [], ts)
      | .flowListStart :: ts => some ([.listStart p.anchor p.tag], [.flowListEntry true], ts)
      | .flowMapStart :: ts => some ([.mapStart p.anchor p.tag], [.flowMapKey true], ts)
      | t :: rest =>
        if loose ∧ t = .blockEntry then some ([.listStart p.anchor p.tag], [.looseEntry], ts)
        else if block ∧ t = .blockListStart then
          some ([.listStart p.anchor p.tag], [.blockListEntry], rest)
        else if block ∧ t = .blockMapStart then
          some ([.mapStart p.anchor p.tag], [.blockMapKey], rest)
        else if p ≠ ⟨none, none⟩ then some ([.scalar p.anchor ⟨[], .plain, p.tag⟩], [], ts)
        else none
      | [] => none

/-- Read a node unless one of the given tokens follows, which mean that it is left out; `after` is
expected behind it. -/
def nodeUnless (handles : Handles) (block loose : Bool) (stops : List Token) (after : Expected)
    (ts : List Token) : Option Step :=
  if startsWith ts stops then some ([emptyScalar], [after], ts)
  else (node? handles block loose ts).map fun (es, more, ts) => (es, more ++ [after], ts)

def flowListStep (handles : Handles) (ts : List Token) : Option Step :=
  match ts with
  | .flowListEnd :: ts => some ([.listEnd], [], ts)
  | .key :: ts => some ([.mapStart none none], [.pairKey, .flowListEntry false], ts)
  | ts => nodeUnless handles false false [] (.flowListEntry false) ts

def flowMapStep (handles : Handles) (ts : List Token) : Option Step :=
  match ts with
  | .flowMapEnd :: ts => some ([.mapEnd], [], ts)
  | .key :: ts =>
    nodeUnless handles false false [.value, .flowEntry, .flowMapEnd] .flowMapValue ts
  | ts => nodeUnless handles false false [] .flowMapNoValue ts

def step? (handles : Handles) (x : Expected) (ts : List Token) : Option Step :=
  match x, ts with
  | .blockListEntry, .blockEntry :: ts =>
    nodeUnless handles true false [.blockEntry, .blockEnd] .blockListEntry ts
  | .blockListEntry, .blockEnd :: ts => some ([.listEnd], [], ts)
  | .blockListEntry, _ => none
  | .looseEntry, .blockEntry :: ts =>
    nodeUnless handles true false [.blockEntry, .key, .value, .blockEnd] .looseEntry ts
  | .looseEntry, ts => some ([.listEnd], [], ts)
  | .blockMapKey, .key :: ts =>
    nodeUnless handles true true [.key, .value, .blockEnd] .blockMapValue ts
  | .blockMapKey, .blockEnd :: ts => some ([.mapEnd], [], ts)
  | .blockMapKey, _ => none
  | .blockMapValue, .value :: ts =>
    nodeUnless handles true true [.key, .value, .blockEnd] .blockMapKey ts
  | .blockMapValue, ts => some ([emptyScalar], [.blockMapKey], ts)
  | .flowListEntry true, ts => flowListStep handles ts
  | .flowListEntry false, .flowListEnd :: ts => some ([.listEnd], [], ts)
  | .flowListEntry false, .flowEntry :: ts => flowListStep handles ts
  | .flowListEntry false, _ => none
  | .pairKey, ts =>
    if startsWith ts [.value, .flowEntry, .flowListEnd] then
      some ([emptyScalar], [.pairValue], ts.tail)
    else nodeUnless handles false false [] .pairValue ts
  | .pairValue, .value :: ts =>
    nodeUnless handles false false [.flowEntry, .flowListEnd] .pairEnd ts
  | .pairValue, ts => some ([emptyScalar], [.pairEnd], ts)
  | .pairEnd, ts => some ([.mapEnd], [], ts)
  | .flowMapKey true, ts => flowMapStep handles ts
  | .flowMapKey false, .flowMapEnd :: ts => some ([.mapEnd], [], ts)
  | .flowMapKey false, .flowEntry :: ts => flowMapStep handles ts
  | .flowMapKey false, _ => none
  | .flowMapValue, .value :: ts =>
    nodeUnless handles false false [.flowEntry, .flowMapEnd] (.flowMapKey false) ts
  | .flowMapValue, ts => some ([emptyScalar], [.flowMapKey false], ts)
  | .flowMapNoValue, ts => some ([emptyScalar], [.flowMapKey false], ts)

def steps? (handles : Handles) : Nat → List Expected → List Token →
    Option (List NamedEvent × List Token)
  | _, [], ts => some ([], ts)
  | 0, _, _ => none
  | n + 1, x :: xs, ts =>
    match step? handles x ts with
    | none => none
    | some (es, more, ts) => (steps? handles n (more ++ xs) ts).map fun (fs, ts) => (es ++ fs, ts)

/-- The number of steps that suffices: a token is read in one step, and before the next one is
read only what was left out and what has ended take steps of their own. -/
def stepBound (ts : List Token) : Nat := 4 * ts.length + 4

/-- The events of the node at the front, and what follows it. -/
def document? (handles : Handles) (ts : List Token) : Option (List NamedEvent × List Token) :=
  match node? handles true false ts with
  | none => none
  | some (es, more, ts) =>
    (steps? handles (stepBound ts) more ts).map fun (fs, ts) => (es ++ fs, ts)

/-- The directives in front of a document: at most one version, which must be known, and for each
handle at most one meaning. -/
def directives? : Bool → Handles → List Token → Option (Handles × List Token)
  | versioned, handles, .version major minor :: ts =>
    if versioned ∨ major ≠ 1 ∨ (minor ≠ 1 ∧ minor ≠ 2) then none
    else directives? true handles ts
  | versioned, handles, .tagHandle h meaning :: ts =>
    if (handles.lookup h).isSome then none else directives? versioned (handles ++ [(h, meaning)]) ts
  | _, handles, ts => some (handles, ts)

/-- Whether a token means that an explicit document has no content. -/
def endsDocument : Token → Bool
  | .version _ _ => true
  | .tagHandle _ _ => true
  | .documentStart => true
  | .documentEnd => true
  | .streamEnd => true
  | _ => false

def explicitDocument? (handles : Handles) (ts : List Token) :
    Option (List NamedEvent × List Token) :=
  match ts with
  | t :: _ => if endsDocument t then some ([emptyScalar], ts) else document? handles ts
  | [] => none

/-- The events of the only document; a text without any has no events. -/
def onlyDocument? (ts : List Token) : Option (List NamedEvent) := do
  let single (r : Option (List NamedEvent × List Token)) : Option (List NamedEvent) :=
    match r with
    | some (es, ts) =>
      if ts.dropWhile (· == .documentEnd) = [.streamEnd] then some es else none
    | none => none
  match ts with
  | [.streamEnd] => some []
  | t :: _ =>
    match t with
    | .version _ _ | .tagHandle _ _ | .documentStart =>
      match directives? false [] ts with
      | some (handles, .documentStart :: ts) =>
        single (explicitDocument? (handles ++ standardHandles) ts)
      | _ => none
    | _ => single (document? standardHandles ts)
  | [] => none

end StyleExports.Yaml
