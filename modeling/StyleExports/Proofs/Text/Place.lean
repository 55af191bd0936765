import StyleExports.Text.Position

namespace StyleExports.Text

/-- The text `w` stands in `s` between two offsets. -/
def StandsAt (s w : List Char) (a b : Nat) : Prop :=
  ∃ u v, s = u ++ (w ++ v) ∧ size u = a ∧ b = a + size w

/-- An offset of a text that is not inside a character; the end is one too. -/
def IsBoundary (s : List Char) (n : Nat) : Prop := ∃ u v, s = u ++ v ∧ size u = n

theorem size_pos_of_ne_nil {s : List Char} (h : s ≠ []) : 0 < size s := by
  obtain ⟨c, t, rfl⟩ := List.exists_cons_of_ne_nil h
  have := c.utf8Size_pos
  rw [size_cons]
  omega

theorem size_reverse (s : List Char) : size s.reverse = size s := by
  induction s with
  | nil => rfl
  | cons c s ih =>
    rw [List.reverse_cons, size_append, ih, size_cons, size_cons, size_nil]
    omega

theorem size_dropWhile_le (p : Char → Bool) (s : List Char) : size (s.dropWhile p) ≤ size s := by
  have whole := congrArg size (List.takeWhile_append_dropWhile (p := p) (l := s))
  rw [size_append] at whole
  omega

theorem eq_of_size_eq {u u' v v' : List Char} (h : u ++ v = u' ++ v') (hs : size u = size u') :
    u = u' := by
  have nothing {w : List Char} (hw : size w = 0) : w = [] := by
    cases w with
    | nil => rfl
    | cons c w => exact absurd hw (Nat.ne_of_gt (size_pos_of_ne_nil (List.cons_ne_nil c w)))
  rcases List.append_eq_append_iff.mp h with ⟨w, rfl, -⟩ | ⟨w, rfl, -⟩
  · rw [size_append] at hs
    rw [nothing (w := w) (by omega), List.append_nil]
  · rw [size_append] at hs
    rw [nothing (w := w) (by omega), List.append_nil]

theorem takeSize_size (u v : List Char) : takeSize (size u) (u ++ v) = u := by
  have nothing : takeSize 0 v = [] := by
    cases v with
    | nil => rfl
    | cons c v =>
      have := c.utf8Size_pos
      rw [takeSize, if_neg (by omega)]
  rw [takeSize_size_append, nothing, List.append_nil]

/-- An offset at which a piece begins is the position after what is in front of it. -/
theorem ofOffset_boundary {u v : List Char} : Position.ofOffset (u ++ v) (size u) = .after u := by
  rw [Position.ofOffset, takeSize_size]

theorem charAt_boundary (u : List Char) (c : Char) (v : List Char) :
    Span.charAt (u ++ c :: v) (size u) = ⟨.after u, .after (u ++ [c])⟩ := by
  have next : u ++ c :: v = (u ++ [c]) ++ v := by simp
  have width : Span.charSize (u ++ c :: v) (size u) = c.utf8Size := by
    rw [Span.charSize, takeSize_size, List.drop_left]
  have stop : size u + c.utf8Size = size (u ++ [c]) := by simp
  rw [Span.charAt, width, Span.between, ofOffset_boundary, stop, next, ofOffset_boundary]

theorem IsBoundary.mono {s u : List Char} {n : Nat} (h : IsBoundary s n) :
    IsBoundary (u ++ s) (size u + n) := by
  obtain ⟨v, w, rfl, rfl⟩ := h
  exact ⟨u ++ v, w, by simp, size_append u v⟩

section

variable {s w x : List Char} {a b c : Nat}

theorem standsAt_self (s : List Char) : StandsAt s s 0 (size s) := ⟨[], [], by simp⟩

theorem StandsAt.eq_add (h : StandsAt s w a b) : b = a + size w := by
  obtain ⟨_, _, -, -, h⟩ := h
  exact h

theorem StandsAt.boundaries (h : StandsAt s w a b) : IsBoundary s a ∧ IsBoundary s b := by
  obtain ⟨u, v, rfl, rfl, rfl⟩ := h
  exact ⟨⟨u, w ++ v, rfl, rfl⟩, ⟨u ++ w, v, (List.append_assoc u w v).symm, size_append u w⟩⟩

theorem StandsAt.append (hw : StandsAt s w a b) (hx : StandsAt s x b c) :
    StandsAt s (w ++ x) a c := by
  obtain ⟨u, v, rfl, rfl, rfl⟩ := hw
  obtain ⟨u', v', h, hu, rfl⟩ := hx
  rw [← List.append_assoc] at h
  obtain rfl := eq_of_size_eq h (by rw [size_append, hu])
  have hv : v = x ++ v' := List.append_cancel_left h
  refine ⟨u, v', by rw [hv, List.append_assoc], rfl, ?_⟩
  rw [size_append]
  omega

theorem StandsAt.left (h : StandsAt s (w ++ x) a b) : StandsAt s w a (a + size w) := by
  obtain ⟨u, v, rfl, hu, -⟩ := h
  exact ⟨u, x ++ v, by rw [List.append_assoc], hu, rfl⟩

theorem StandsAt.right (h : StandsAt s (w ++ x) a b) : StandsAt s x (a + size w) b := by
  obtain ⟨u, v, rfl, rfl, rfl⟩ := h
  exact ⟨u ++ w, v, by simp, size_append u w, by rw [size_append, Nat.add_assoc]⟩

end

/-- Parts of a text between two offsets. None is empty, and each stands behind those before it. -/
structure InOrder {α : Type} (start stop : α → Nat) (xs : List α) (a b : Nat) : Prop where
  inside : ∀ x ∈ xs, a ≤ start x ∧ start x < stop x ∧ stop x ≤ b
  apart : xs.Pairwise fun x y => stop x ≤ start y

namespace InOrder

variable {α : Type} {start stop : α → Nat} {xs ys : List α} {x : α} {a b c d : Nat}

theorem nil : InOrder start stop [] a b := ⟨by simp, .nil⟩

theorem singleton (ha : a ≤ start x) (hx : start x < stop x) (hb : stop x ≤ b) :
    InOrder start stop [x] a b :=
  ⟨fun y hy => by rw [List.mem_singleton.mp hy]; exact ⟨ha, hx, hb⟩, List.pairwise_singleton ..⟩

theorem mono (h : InOrder start stop xs b c) (ha : a ≤ b) (hd : c ≤ d) :
    InOrder start stop xs a d := by
  refine ⟨fun x hx => ?_, h.apart⟩
  have := h.inside x hx
  omega

theorem append (h : InOrder start stop xs a b) (k : InOrder start stop ys b c) (ha : a ≤ b)
    (hc : b ≤ c) : InOrder start stop (xs ++ ys) a c := by
  refine ⟨fun x hx => ?_, List.pairwise_append.mpr ⟨h.apart, k.apart, fun x hx y hy => ?_⟩⟩
  · rcases List.mem_append.mp hx with hx | hx
    · have := h.inside x hx
      omega
    · have := k.inside x hx
      omega
  · have := h.inside x hx
    have := k.inside y hy
    omega

end InOrder

def bytes (s : List Char) : List UInt8 := s.flatMap String.utf8EncodeChar

@[simp] theorem bytes_append (s t : List Char) : bytes (s ++ t) = bytes s ++ bytes t :=
  List.flatMap_append

@[simp] theorem length_bytes (s : List Char) : (bytes s).length = size s := by
  induction s with
  | nil => rfl
  | cons c s ih =>
    have first : bytes (c :: s) = String.utf8EncodeChar c ++ bytes s := rfl
    rw [first, List.length_append, ih, String.length_utf8EncodeChar, size_cons]

theorem StandsAt.bytes {s w : List Char} {a b : Nat} (h : StandsAt s w a b) :
    (Text.bytes s).extract a b = Text.bytes w := by
  obtain ⟨u, v, rfl, rfl, rfl⟩ := h
  have before : (Text.bytes u).length = size u := length_bytes u
  have inside : (Text.bytes w).length = size w := length_bytes w
  rw [bytes_append, bytes_append, List.extract_eq_take_drop, Nat.add_sub_cancel_left, ← before,
    List.drop_left, ← inside, List.take_left]

theorem getElem?_bytes_append (s t : List Char) (n : Nat) :
    (bytes (s ++ t))[size s + n]? = (bytes t)[n]? := by
  rw [bytes_append, ← length_bytes s, List.getElem?_append_right (Nat.le_add_right ..),
    Nat.add_sub_cancel_left]

/-- The characters whose offsets pass a test, of a text that begins at an offset. -/
def keepAt (p : Nat → Bool) : Nat → List Char → List Char
  | _, [] => []
  | n, c :: s =>
    if p n then c :: keepAt p (n + c.utf8Size) s else keepAt p (n + c.utf8Size) s

theorem keepAt_append (p : Nat → Bool) (n : Nat) (s t : List Char) :
    keepAt p n (s ++ t) = keepAt p n s ++ keepAt p (n + size s) t := by
  induction s generalizing n with
  | nil => rfl
  | cons c s ih =>
    simp only [List.cons_append, keepAt, size_cons, ih, Nat.add_assoc]
    split <;> rfl

theorem keepAt_congr {p q : Nat → Bool} {n : Nat} {s : List Char}
    (h : ∀ k, n ≤ k → k < n + size s → p k = q k) : keepAt p n s = keepAt q n s := by
  induction s generalizing n with
  | nil => rfl
  | cons c s ih =>
    have := c.utf8Size_pos
    simp only [size_cons] at h
    simp only [keepAt, h n (Nat.le_refl n) (by omega)]
    rw [ih fun k hk hs => h k (by omega) (by omega)]

theorem keepAt_true (n : Nat) (s : List Char) : keepAt (fun _ => true) n s = s := by
  induction s generalizing n with
  | nil => rfl
  | cons c s ih => simp [keepAt, ih]

theorem keepAt_false (n : Nat) (s : List Char) : keepAt (fun _ => false) n s = [] := by
  induction s generalizing n with
  | nil => rfl
  | cons c s ih => simp [keepAt, ih]

end StyleExports.Text
