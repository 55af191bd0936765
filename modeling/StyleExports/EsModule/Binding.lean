import StyleExports.EsModule.Scan
import StyleExports.Text.Blank

namespace StyleExports.EsModule

open Text

inductive Inside where
  | plain
  | literal (l : Literal)
  /-- After a literal that does not end: nothing is cut any more. -/
  | lost
  deriving DecidableEq, Repr

def consFirst (c : Char) : List (List Char) → List (List Char)
  | [] => [[c]]
  | w :: ws => (c :: w) :: ws

/-- Whether an equals sign is part of an arrow or a comparison, by its neighbours. -/
def isCompound (sep : Char) (previous next : Option Char) : Bool :=
  sep == '=' &&
    (next == some '=' || next == some '>' ||
      previous == some '=' || previous == some '!' || previous == some '<' || previous == some '>')

/-- The parts of a text between separators outside brackets and literals; `depth` brackets are
open and `previous` is the character before. -/
def partsFrom (sep : Char) : Nat → Option Char → Inside → List Char → List (List Char)
  | _, _, _, [] => [[]]
  | depth, _, .lost, c :: s => consFirst c (partsFrom sep depth (some c) .lost s)
  | depth, _, .literal l, c :: s =>
    match l.step c with
    | .inside l => consFirst c (partsFrom sep depth (some c) (.literal l) s)
    | .closed => consFirst c (partsFrom sep depth (some c) .plain s)
    | .broken => consFirst c (partsFrom sep depth (some c) .lost s)
  | depth, previous, .plain, c :: s =>
    match Literal.open? c with
    | some l => consFirst c (partsFrom sep depth (some c) (.literal l) s)
    | none =>
      if c = '(' ∨ c = '[' ∨ c = '{' then
        consFirst c (partsFrom sep (depth + 1) (some c) .plain s)
      else if c = ')' ∨ c = ']' ∨ c = '}' then
        consFirst c (partsFrom sep (depth - 1) (some c) .plain s)
      else if c = sep ∧ depth = 0 ∧ isCompound sep previous s.head? = false then
        [] :: partsFrom sep depth (some c) .plain s
      else consFirst c (partsFrom sep depth (some c) .plain s)

def parts (sep : Char) (s : List Char) : List (List Char) := partsFrom sep 0 none .plain s

theorem length_of_mem_consFirst {c : Char} {ps : List (List Char)} {w : List Char} {n : Nat}
    (hp : ∀ v ∈ ps, v.length ≤ n) (h : w ∈ consFirst c ps) : w.length ≤ n + 1 := by
  cases ps with
  | nil =>
    simp only [consFirst, List.mem_singleton] at h
    simp [h]
  | cons v vs =>
    rcases List.mem_cons.1 h with rfl | h
    · simpa using hp v List.mem_cons_self
    · exact Nat.le_succ_of_le (hp w (List.mem_cons_of_mem _ h))

theorem length_of_mem_partsFrom {sep : Char} {depth : Nat} {previous : Option Char} {m : Inside}
    {s w : List Char} (h : w ∈ partsFrom sep depth previous m s) : w.length ≤ s.length := by
  induction s generalizing depth previous m w with
  | nil =>
    simp only [partsFrom, List.mem_singleton] at h
    simp [h]
  | cons c s ih =>
    have step (d : Nat) (p : Option Char) (m : Inside)
        (h : w ∈ consFirst c (partsFrom sep d p m s)) : w.length ≤ (c :: s).length :=
      length_of_mem_consFirst (fun v hv => ih hv) h
    cases m with
    | lost => exact step _ _ _ h
    | literal l =>
      simp only [partsFrom] at h
      split at h <;> exact step _ _ _ h
    | plain =>
      simp only [partsFrom] at h
      split at h
      · exact step _ _ _ h
      · split at h
        · exact step _ _ _ h
        · split at h
          · exact step _ _ _ h
          · split at h
            · rcases List.mem_cons.1 h with rfl | h
              · simp
              · exact Nat.le_succ_of_le (ih h)
            · exact step _ _ _ h

theorem length_of_mem_parts {sep : Char} {s w : List Char} (h : w ∈ parts sep s) :
    w.length ≤ s.length := length_of_mem_partsFrom h

def firstPart (sep : Char) (s : List Char) : List Char := (parts sep s).head?.getD []

def lastPart (sep : Char) (s : List Char) : List Char := (parts sep s).getLast?.getD s

theorem length_firstPart_le (sep : Char) (s : List Char) : (firstPart sep s).length ≤ s.length := by
  unfold firstPart
  cases h : (parts sep s).head? with
  | none => simp
  | some w => exact length_of_mem_parts (List.mem_of_head? h)

theorem length_lastPart_le (sep : Char) (s : List Char) : (lastPart sep s).length ≤ s.length := by
  unfold lastPart
  cases h : (parts sep s).getLast? with
  | none => simp
  | some w => exact length_of_mem_parts (List.mem_of_getLast? h)

def identifier? (s : List Char) : Option String :=
  match s.takeWhile isIdentChar with
  | [] => none
  | w => some (String.ofList w)

def dropDots : List Char → List Char
  | '.' :: '.' :: '.' :: s => dropDots s
  | s => s

/-- A binding target without blanks around it and without the dots of a rest element. -/
def bareTarget (s : List Char) : List Char := dropDots (trim s)

def between? (first last : Char) : List Char → Option (List Char)
  | [] => none
  | c :: s => if c = first ∧ s.getLast? = some last then some s.dropLast else none

/-- The inside of a destructuring pattern, and whether it is an object pattern. -/
def pattern? (s : List Char) : Option (List Char × Bool) :=
  match between? '{' '}' s with
  | some inner => some (inner, true)
  | none => (between? '[' ']' s).map (·, false)

/-- The binding target of one element of a pattern: no default, and in an object pattern no key. -/
def elementTarget (object : Bool) (s : List Char) : List Char :=
  let bound := firstPart '=' s
  if object then lastPart ':' bound else bound

theorem length_dropDots_le (s : List Char) : (dropDots s).length ≤ s.length := by
  fun_induction dropDots s with
  | case1 s ih => simp only [List.length_cons]; omega
  | case2 s _ => exact Nat.le_refl _

theorem length_dropEndWhile_le (p : Char → Bool) (s : List Char) :
    (dropEndWhile p s).length ≤ s.length := by
  have h := congrArg List.length (dropEndWhile_append_takeEndWhile p s)
  rw [List.length_append] at h
  omega

theorem length_bareTarget_le (s : List Char) : (bareTarget s).length ≤ s.length := by
  refine Nat.le_trans (length_dropDots_le _) (Nat.le_trans (length_dropEndWhile_le _ _) ?_)
  exact (List.dropWhile_suffix isBlank).length_le

theorem length_of_between? {a b : Char} {s t : List Char} (h : between? a b s = some t) :
    t.length < s.length := by
  unfold between? at h
  split at h
  · simp at h
  · split at h
    · simp only [Option.some.injEq] at h
      simp only [← h, List.length_dropLast, List.length_cons]
      omega
    · simp at h

theorem length_of_pattern? {s t : List Char} {b : Bool} (h : pattern? s = some (t, b)) :
    t.length < s.length := by
  unfold pattern? at h
  split at h
  · rename_i inner hi
    simp only [Option.some.injEq, Prod.mk.injEq] at h
    exact h.1 ▸ length_of_between? hi
  · simp only [Option.map_eq_some_iff, Prod.mk.injEq] at h
    obtain ⟨u, hu, rfl, _⟩ := h
    exact length_of_between? hu

theorem length_elementTarget_le (object : Bool) (s : List Char) :
    (elementTarget object s).length ≤ s.length := by
  unfold elementTarget
  split
  · exact Nat.le_trans (length_lastPart_le _ _) (length_firstPart_le _ _)
  · exact length_firstPart_le _ _

def targetNames (target : List Char) : List String :=
  match _h : pattern? (bareTarget target) with
  | none => (identifier? (bareTarget target)).toList
  | some (inner, object) =>
    (parts ',' inner).attach.flatMap fun e => targetNames (elementTarget object e.1)
termination_by target.length
decreasing_by
  have h1 := length_elementTarget_le object e.1
  have h2 := length_of_mem_parts e.2
  have h3 := length_of_pattern? _h
  have h4 := length_bareTarget_le target
  omega

def declaratorNames (body : List Char) : List String :=
  (parts ',' body).flatMap fun d => targetNames (firstPart '=' d)

def variableBody? (s : List Char) : Option (List Char) :=
  (afterKeyword? "const".toList s).or
    ((afterKeyword? "let".toList s).or (afterKeyword? "var".toList s))

def declaredNames (s : List Char) : List String :=
  let s := match afterKeyword? "async".toList s with
    | some rest => trimStart rest
    | none => s
  match afterKeyword? "function".toList s with
  | some rest => (identifier? (trimStart ((trimStart rest).dropWhile (· == '*')))).toList
  | none =>
    match afterKeyword? "class".toList s with
    | some rest => (identifier? (trimStart rest)).toList
    | none =>
      match variableBody? s with
      | some body => declaratorNames (dropEndWhile (· == ';') (trim body))
      | none => []

end StyleExports.EsModule
