import StyleExports.Proofs.Text.Place

namespace StyleExports.Text

/-- A text that begins at an offset, with others put behind its characters. -/
def insertAt (f : Nat → List Char) : Nat → List Char → List Char
  | _, [] => []
  | n, c :: s => c :: (f (n + c.utf8Size) ++ insertAt f (n + c.utf8Size) s)

section

variable {f g : Nat → List Char} {n : Nat} {s : List Char}

theorem insertAt_append (f : Nat → List Char) (n : Nat) (s t : List Char) :
    insertAt f n (s ++ t) = insertAt f n s ++ insertAt f (n + size s) t := by
  induction s generalizing n with
  | nil => rfl
  | cons c s ih => simp [insertAt, ih, Nat.add_assoc]

theorem insertAt_congr (h : ∀ k, n < k → k ≤ n + size s → f k = g k) :
    insertAt f n s = insertAt g n s := by
  induction s generalizing n with
  | nil => rfl
  | cons c s ih =>
    have := c.utf8Size_pos
    rw [size_cons] at h
    rw [insertAt, insertAt, h _ (by omega) (by omega), ih fun k hk hs => h k (by omega) (by omega)]

theorem insertAt_nothing (n : Nat) (s : List Char) : insertAt (fun _ => []) n s = s := by
  induction s generalizing n with
  | nil => rfl
  | cons c s ih => rw [insertAt, ih, List.nil_append]

end

/-- The texts that go to an offset, of texts with the offsets that they go to. -/
def textsAt (es : List (Nat × List Char)) (n : Nat) : List Char :=
  es.flatMap fun e => if e.1 = n then e.2 else []

theorem textsAt_append (es fs : List (Nat × List Char)) (n : Nat) :
    textsAt (es ++ fs) n = textsAt es n ++ textsAt fs n := List.flatMap_append

theorem textsAt_eq_nil {es : List (Nat × List Char)} {n : Nat} (h : ∀ e ∈ es, e.1 ≠ n) :
    textsAt es n = [] :=
  List.flatMap_eq_nil_iff.mpr fun e he => if_neg (h e he)

/-- Behind one offset and up to another, some texts are put in and nothing else is. -/
def Inserts (f : Nat → List Char) (es : List (Nat × List Char)) (a b : Nat) : Prop :=
  ∀ k, a < k → k ≤ b → f k = textsAt es k

section

variable {f : Nat → List Char} {es fs : List (Nat × List Char)} {a b c : Nat} {w : List Char}

/-- Up to an offset, what is put in behind it does not matter. -/
theorem Inserts.left (h : Inserts f (es ++ fs) a c) (hb : b ≤ c) (hf : ∀ e ∈ fs, b < e.1) :
    Inserts f es a b := by
  intro k ha hk
  have later : textsAt fs k = [] := textsAt_eq_nil fun e he => by
    have := hf e he
    omega
  rw [h k ha (by omega), textsAt_append, later, List.append_nil]

theorem Inserts.right (h : Inserts f (es ++ fs) a c) (hb : a ≤ b) (he : ∀ e ∈ es, e.1 ≤ b) :
    Inserts f fs b c := by
  intro k hk hc
  have earlier : textsAt es k = [] := textsAt_eq_nil fun e hm => by
    have := he e hm
    omega
  rw [h k (by omega) hc, textsAt_append, earlier, List.nil_append]

theorem Inserts.before (h : Inserts f es a c) (hb : b ≤ c) (he : ∀ e ∈ es, b < e.1) :
    Inserts f [] a b := by
  rw [← List.nil_append es] at h
  exact h.left hb he

theorem Inserts.after (h : Inserts f es a c) (hb : a ≤ b) : Inserts f es b c :=
  fun k hk hc => h k (by omega) hc

theorem Inserts.insertAt_eq (h : Inserts f es a (a + size w)) :
    insertAt f a w = insertAt (textsAt es) a w := insertAt_congr h

theorem Inserts.insertAt_nil (h : Inserts f [] a (a + size w)) : insertAt f a w = w := by
  rw [insertAt_congr (g := fun _ => []) h, insertAt_nothing]

theorem Inserts.insertAt_end {x : List Char} (h : Inserts f [(a + size w, x)] a (a + size w))
    (hw : w ≠ []) : insertAt f a w = w ++ x := by
  induction w generalizing a with
  | nil => exact absurd rfl hw
  | cons c w ih =>
    have := c.utf8Size_pos
    rw [size_cons, ← Nat.add_assoc] at h
    have here := h (a + c.utf8Size) (by omega) (by omega)
    cases w with
    | nil =>
      rw [insertAt, here]
      simp [textsAt, insertAt]
    | cons d w =>
      have := d.utf8Size_pos
      have nothing : textsAt [(a + c.utf8Size + size (d :: w), x)] (a + c.utf8Size) = [] := by
        refine textsAt_eq_nil fun e he => ?_
        obtain rfl := List.mem_singleton.mp he
        dsimp only [size_cons]
        omega
      rw [insertAt, here, nothing, ih (fun k hk => h k (by omega)) (by simp)]
      rfl

end

/-- Where the text up to an offset ends when others are put in. -/
def movedBy (f : Nat → List Char) (s : List Char) (n : Nat) : Nat := size (insertAt f 0 (takeSize n s))

theorem movedBy_zero (f : Nat → List Char) (s : List Char) : movedBy f s 0 = 0 := by
  have start : takeSize 0 s = [] := takeSize_size [] s
  rw [movedBy, start]
  rfl

/-- A part of a text is moved as a whole, and grows by what is put into it. -/
theorem movedBy_stop {f : Nat → List Char} {s w : List Char} {a b : Nat} (h : StandsAt s w a b) :
    movedBy f s b = movedBy f s a + size (insertAt f a w) := by
  obtain ⟨u, v, rfl, rfl, rfl⟩ := h
  have stop : takeSize (size u + size w) (u ++ (w ++ v)) = u ++ w := by
    rw [← size_append, ← List.append_assoc, takeSize_size]
  rw [movedBy, movedBy, stop, takeSize_size, insertAt_append, size_append, Nat.zero_add]

end StyleExports.Text
