import StyleExports.Glob.Matcher

namespace StyleExports.Glob

inductive Fault where
  | unclosedClass
  | invalidRange (first last : Char)
  | unopenedAlternates
  | unclosedAlternates
  | danglingEscape
  deriving DecidableEq, Repr

def Fault.message : Fault → String
  | .unclosedClass => "unclosed character class; missing ']'"
  | .invalidRange a b => "invalid range; '" ++ a.toString ++ "' > '" ++ b.toString ++ "'"
  | .unopenedAlternates =>
    "unopened alternate group; missing '\x7b' (maybe escape '\x7d' with '[\x7d]'?)"
  | .unclosedAlternates =>
    "unclosed alternate group; missing '\x7d' (maybe escape '\x7b' with '[\x7b]'?)"
  | .danglingEscape => "dangling '\\'"

inductive Part where
  | literal (c : Char)
  | any
  | star
  /-- Any number of components at the start. -/
  | leading
  /-- Any number of components in the middle. -/
  | inner
  /-- One or more components at the end. -/
  | trailing
  | charClass (negated : Bool) (ranges : List (Char × Char))
  /-- Alternatives, if any of them says anything. -/
  | choice (m : Option Matcher)
  deriving DecidableEq, Repr

def bytesOf (c : Char) : List UInt8 := c.toString.toUTF8.toList

/-- The byte ranges of one range of characters. Only the last byte of the first character and the
first byte of the last one span a range; the bytes around them stand for themselves. -/
def byteRanges (r : Char × Char) : List (Nat × Nat) :=
  let single (b : UInt8) : Nat × Nat := (b.toNat, b.toNat)
  if r.1 = r.2 then (bytesOf r.1).map single
  else
    match (bytesOf r.1).reverse, bytesOf r.2 with
    | a :: before, b :: after =>
      before.reverse.map single ++ (a.toNat, b.toNat) :: after.map single
    | _, _ => []

namespace Part

/-- The expression of a part, unless the part says nothing. -/
def matcher? : Part → Option Matcher
  | .literal c => some (.seqAll ((bytesOf c).map fun b => .one (.single b.toNat)))
  | .any => some (.one .noSlash)
  | .star => some (.many .noSlash)
  | .leading => some (.alt (.alt .nothing .slash) (.seq (.many .all) .slash))
  | .inner => some (.alt .slash (.seq .slash (.seq (.many .all) .slash)))
  | .trailing => some (.seq .slash (.many .all))
  | .charClass negated ranges => some (.one ⟨negated, ranges.flatMap byteRanges⟩)
  | .choice m => m

def matcherAll? (ps : List Part) : Option Matcher :=
  match ps.filterMap matcher? with
  | [] => none
  | ms => some (.seqAll ms)

def choiceOf (branches : List (List Part)) : Part :=
  match branches.filterMap matcherAll? with
  | [] => .choice none
  | m :: ms => .choice (some (ms.foldl .alt m))

end Part

/-- The inside of a class after its first characters. -/
structure ClassRead where
  ranges : List (Char × Char)
  /-- After a hyphen that may join two characters. -/
  joining : Bool
  deriving DecidableEq, Repr

namespace ClassRead

def join (k : ClassRead) (c : Char) : Except Fault ClassRead :=
  match k.ranges with
  | (a, _) :: rs => if c < a then .error (.invalidRange a c) else .ok ⟨(a, c) :: rs, false⟩
  | [] => .ok ⟨[(c, c)], false⟩

def step (k : ClassRead) (c : Char) : Except Fault ClassRead :=
  if k.joining then k.join c
  else if c = '-' ∧ k.ranges ≠ [] then .ok { k with joining := true }
  else .ok ⟨(c, c) :: k.ranges, false⟩

/-- The ranges of a class that has ended. A hyphen at the end stands for itself. -/
def finish (k : ClassRead) : List (Char × Char) :=
  (if k.joining then ('-', '-') :: k.ranges else k.ranges).reverse

end ClassRead

structure Reading where
  /-- The parts of the current branch, last one first. -/
  current : List Part
  /-- For each open group, innermost first: the branches before the current one, last one first,
  and the parts before the group, last one first. -/
  groups : List (List (List Part) × List Part)
  previous : Option Char
  deriving DecidableEq, Repr

namespace Reading

def start : Reading := ⟨[], [], none⟩

def push (r : Reading) (p : Part) (c : Char) : Reading :=
  { r with current := p :: r.current, previous := some c }

/-- The number of branches that are open, the whole pattern being one. -/
def isNested (r : Reading) : Bool := !r.groups.isEmpty

/-- Two stars that are no component of their own: each stays within a component. -/
def pushStars (r : Reading) : Reading :=
  { r with current := .star :: .star :: r.current, previous := some '*' }

/-- Whether two stars begin a component: the character before is a slash, or begins a branch. -/
def beginsComponent (r : Reading) : Bool :=
  r.previous == some '/' ||
    (r.isNested && (r.previous == some ',' || r.previous == some '{'))

/-- Put the part for components in place of the last part; parts for components take in
others. -/
def absorb (r : Reading) (p : Part) (c : Char) : Reading :=
  match r.current with
  | .leading :: ps => { r with current := .leading :: ps, previous := some c }
  | .trailing :: ps => { r with current := .trailing :: ps, previous := some c }
  | _ :: ps => { r with current := p :: ps, previous := some c }
  | [] => { r with current := [p], previous := some c }

/-- Read two stars; `s` follows them. The answer is the reading and what still follows it. -/
def stars (r : Reading) (s : List Char) : Reading × List Char :=
  if r.current.isEmpty then
    match s with
    | [] => (r.push .leading '*', [])
    | '/' :: s => (r.push .leading '/', s)
    | _ => (r.pushStars, s)
  else if r.beginsComponent then
    match s with
    | [] => (r.absorb .trailing '*', [])
    | '/' :: s => (r.absorb .inner '/', s)
    | c :: _ =>
      if r.isNested && (c == ',' || c == '}') then (r.absorb .trailing '*', s)
      else (r.pushStars, s)
  else (r.pushStars, s)

def close (r : Reading) : Except Fault Reading :=
  match r.groups with
  | [] => .error .unopenedAlternates
  | (branches, before) :: groups =>
    .ok ⟨.choiceOf ((r.current :: branches).reverse.map List.reverse) :: before, groups, some '}'⟩

/-- Begin another branch of the innermost group. Outside groups a comma is no separator. -/
def comma (r : Reading) : Reading :=
  match r.groups with
  | [] => r.push (.literal ',') ','
  | (branches, before) :: groups =>
    ⟨[], (r.current :: branches, before) :: groups, some ','⟩

end Reading

def readClass (k : ClassRead) (first : Bool) : List Char →
    Except Fault (List (Char × Char) × List Char)
  | [] => .error .unclosedClass
  | c :: s => do
    if c = ']' ∧ first = false then return (k.finish, s)
    let k ← k.step c
    readClass k false s

theorem length_of_readClass {k : ClassRead} {first : Bool} {s t : List Char}
    {rs : List (Char × Char)} (h : readClass k first s = .ok (rs, t)) : t.length < s.length := by
  induction s generalizing k first with
  | nil => simp [readClass] at h
  | cons c s ih =>
    simp only [readClass, bind, Except.bind, pure, Except.pure] at h
    split at h
    · simp only [Except.ok.injEq, Prod.mk.injEq] at h
      simp [← h.2]
    · cases hk : k.step c with
      | error e => simp [hk] at h
      | ok k' =>
        simp only [hk] at h
        exact Nat.lt_succ_of_lt (ih h)

theorem length_stars_le (r : Reading) (s : List Char) : (r.stars s).2.length ≤ s.length := by
  unfold Reading.stars
  split
  · split <;> simp
  · split
    · split
      · simp
      · simp
      · split <;> simp
    · simp

/-- Whether a class lists the characters that do not belong to it, and the rest of the class. -/
def classSign : List Char → Bool × List Char
  | '!' :: s => (true, s)
  | '^' :: s => (true, s)
  | s => (false, s)

theorem length_classSign_le (s : List Char) : (classSign s).2.length ≤ s.length := by
  unfold classSign
  split <;> simp

def readParts (r : Reading) (s : List Char) : Except Fault Reading :=
  match s with
  | [] => .ok r
  | c :: s =>
    if c = '?' then readParts (r.push .any '?') s
    else if c = '*' then
      match s with
      | '*' :: s => readParts (r.stars s).1 (r.stars s).2
      | s => readParts (r.push .star '*') s
    else if c = '[' then
      match _h : readClass ⟨[], false⟩ true (classSign s).2 with
      | .error e => .error e
      | .ok (ranges, t) => readParts (r.push (.charClass (classSign s).1 ranges) ']') t
    else if c = '{' then readParts ⟨[], ([], r.current) :: r.groups, some '{'⟩ s
    else if c = '}' then
      match r.close with
      | .error e => .error e
      | .ok r => readParts r s
    else if c = ',' then readParts r.comma s
    else if c = '\\' then
      match s with
      | [] => .error .danglingEscape
      | c :: s => readParts (r.push (.literal c) c) s
    else readParts (r.push (.literal c) c) s
termination_by s.length
decreasing_by
  all_goals simp only [List.length_cons]
  all_goals first
    | omega
    | exact Nat.lt_of_le_of_lt (length_stars_le r _) (by omega)
    | exact Nat.lt_succ_of_lt
        (Nat.lt_of_lt_of_le (length_of_readClass _h) (length_classSign_le _))

structure Pattern where
  parts : List Part
  deriving DecidableEq, Repr

namespace Pattern

def ofText? (s : List Char) : Except Fault Pattern :=
  match readParts .start s with
  | .error e => .error e
  | .ok r => if r.isNested then .error .unclosedAlternates else .ok ⟨r.current.reverse⟩

/-- The expression of a pattern. Two stars alone match everything. -/
def matcher (p : Pattern) : Matcher :=
  if p.parts = [.leading] then .many .all else (Part.matcherAll? p.parts).getD .nothing

def isMatch (p : Pattern) (path : List Char) : Bool :=
  p.matcher.isMatch (String.ofList path).toUTF8.toList

end Pattern

end StyleExports.Glob
