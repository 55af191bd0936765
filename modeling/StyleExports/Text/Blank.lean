namespace StyleExports.Text

/-- Blank in the lexical grammars: space, tab, line feed, form feed, carriage return. -/
def isSpace (c : Char) : Bool :=
  c == ' ' || c == '\t' || c == '\n' || c == '\x0c' || c == '\r'

/-- The code points with the property `White_Space`, as closed ranges. -/
def blankRanges : List (Nat × Nat) :=
  [(0x09, 0x0d), (0x20, 0x20), (0x85, 0x85), (0xa0, 0xa0), (0x1680, 0x1680), (0x2000, 0x200a),
   (0x2028, 0x2029), (0x202f, 0x202f), (0x205f, 0x205f), (0x3000, 0x3000)]

def isBlank (c : Char) : Bool :=
  blankRanges.any fun r => r.1 ≤ c.toNat && c.toNat ≤ r.2

theorem isBlank_of_isSpace {c : Char} (h : isSpace c) : isBlank c := by
  simp only [isSpace, Bool.or_eq_true, beq_iff_eq] at h
  rcases h with (((rfl | rfl) | rfl) | rfl) | rfl <;> decide

def dropEndWhile {α : Type} (p : α → Bool) : List α → List α
  | [] => []
  | c :: s =>
    match dropEndWhile p s with
    | [] => if p c then [] else [c]
    | d :: t => c :: d :: t

def takeEndWhile {α : Type} (p : α → Bool) : List α → List α
  | [] => []
  | c :: s =>
    match dropEndWhile p s with
    | [] => if p c then c :: takeEndWhile p s else takeEndWhile p s
    | _ :: _ => takeEndWhile p s

theorem dropEndWhile_append_takeEndWhile {α : Type} (p : α → Bool) (s : List α) :
    dropEndWhile p s ++ takeEndWhile p s = s := by
  induction s with
  | nil => rfl
  | cons c s ih =>
    unfold dropEndWhile takeEndWhile
    cases hs : dropEndWhile p s with
    | nil => rw [hs] at ih; by_cases hc : p c <;> simp_all
    | cons d t => rw [hs] at ih; simpa using ih

theorem of_mem_takeEndWhile {α : Type} {p : α → Bool} {s : List α} {c : α}
    (h : c ∈ takeEndWhile p s) : p c := by
  induction s with
  | nil => simp [takeEndWhile] at h
  | cons d s ih =>
    unfold takeEndWhile at h
    cases hs : dropEndWhile p s with
    | nil =>
      rw [hs] at h
      by_cases hd : p d
      · simp only [hd, if_true, List.mem_cons] at h
        rcases h with rfl | h
        · exact hd
        · exact ih h
      · simp only [hd] at h
        exact ih h
    | cons e t => rw [hs] at h; exact ih h

def trimStart (s : List Char) : List Char := s.dropWhile isBlank

def trimEnd (s : List Char) : List Char := dropEndWhile isBlank s

def trim (s : List Char) : List Char := trimEnd (trimStart s)

def words : List Char → List (List Char)
  | [] => []
  | c :: s =>
    if isBlank c then words s
    else
      match s with
      | [] => [[c]]
      | d :: _ =>
        if isBlank d then [c] :: words s
        else
          match words s with
          | [] => [[c]]
          | w :: ws => (c :: w) :: ws

def isAllBlank (s : List Char) : Bool := s.all isBlank

end StyleExports.Text
