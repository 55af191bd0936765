namespace StyleExports.Text

/-- The parts of a text between its separators. There is always one part more than separators. -/
def split (p : Char → Bool) : List Char → List (List Char)
  | [] => [[]]
  | c :: s =>
    if p c then [] :: split p s
    else
      match split p s with
      | [] => [[c]]
      | w :: ws => (c :: w) :: ws

theorem split_ne_nil (p : Char → Bool) (s : List Char) : split p s ≠ [] := by
  cases s with
  | nil => simp [split]
  | cons c s =>
    unfold split
    split
    · simp
    · split <;> simp

def join (sep : List Char) : List (List Char) → List Char
  | [] => []
  | [w] => w
  | w :: v :: ws => w ++ sep ++ join sep (v :: ws)

/-- Splitting at one character and joining with it loses nothing. -/
theorem join_split (x : Char) (s : List Char) : join [x] (split (· == x) s) = s := by
  induction s with
  | nil => rfl
  | cons c s ih =>
    unfold split
    by_cases h : c = x
    · subst h
      cases hs : split (· == c) s with
      | nil => exact absurd hs (split_ne_nil _ s)
      | cons w ws => rw [hs] at ih; simp [join, ih]
    · cases hs : split (· == x) s with
      | nil => exact absurd hs (split_ne_nil _ s)
      | cons w ws =>
        rw [hs] at ih
        cases ws with
        | nil => simpa [h, join] using ih
        | cons v vs => simpa [h, join] using ih

theorem not_of_mem_split {p : Char → Bool} {s w : List Char} {c : Char}
    (hw : w ∈ split p s) (hc : c ∈ w) : p c = false := by
  induction s generalizing w with
  | nil => simp only [split, List.mem_singleton] at hw; simp [hw] at hc
  | cons d s ih =>
    unfold split at hw
    split at hw
    · rcases List.mem_cons.1 hw with rfl | hw
      · simp at hc
      · exact ih hw hc
    · rename_i hd
      cases hs : split p s with
      | nil => exact absurd hs (split_ne_nil p s)
      | cons v vs =>
        rw [hs] at hw ih
        rcases List.mem_cons.1 hw with rfl | hw
        · rcases List.mem_cons.1 hc with rfl | hc
          · simpa using hd
          · exact ih List.mem_cons_self hc
        · exact ih (List.mem_cons_of_mem _ hw) hc

/-- The text before and after the first character with property `p`. -/
def cut? (p : Char → Bool) : List Char → Option (List Char × List Char)
  | [] => none
  | c :: s => if p c then some ([], s) else (cut? p s).map fun (a, b) => (c :: a, b)

def cutLast? (p : Char → Bool) : List Char → Option (List Char × List Char)
  | [] => none
  | c :: s =>
    match cutLast? p s with
    | some (a, b) => some (c :: a, b)
    | none => if p c then some ([], s) else none

def cutText? (t : List Char) : List Char → Option (List Char × List Char)
  | [] => if t.isEmpty then some ([], []) else none
  | c :: s =>
    match t.isPrefixOf? (c :: s) with
    | some rest => some ([], rest)
    | none => (cutText? t s).map fun (a, b) => (c :: a, b)

def occursIn (t s : List Char) : Bool := (cutText? t s).isSome

def exchangeFirst (t u s : List Char) : List Char :=
  match cutText? t s with
  | some (a, b) => a ++ u ++ b
  | none => s

def eqIgnoreCase (s t : List Char) : Bool := s.map Char.toLower == t.map Char.toLower

/-- The size of a text in bytes, in the encoding UTF-8. Offsets are such sizes. -/
def size : List Char → Nat
  | [] => 0
  | c :: s => c.utf8Size + size s

@[simp] theorem size_nil : size [] = 0 := rfl

@[simp] theorem size_cons (c : Char) (s : List Char) : size (c :: s) = c.utf8Size + size s := rfl

@[simp] theorem size_append (s t : List Char) : size (s ++ t) = size s + size t := by
  induction s with
  | nil => simp
  | cons c s ih => simp [ih, Nat.add_assoc]

/-- The longest start of a text that fits into `n` bytes. -/
def takeSize (n : Nat) : List Char → List Char
  | [] => []
  | c :: s => if c.utf8Size ≤ n then c :: takeSize (n - c.utf8Size) s else []

theorem takeSize_size_append (s t : List Char) :
    takeSize (size s) (s ++ t) = s ++ takeSize 0 t := by
  induction s with
  | nil => rfl
  | cons c s ih => simp [takeSize, ih]

end StyleExports.Text
