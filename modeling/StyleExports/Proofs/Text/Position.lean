import Mathlib.Data.List.Induction
import StyleExports.Proofs.Text.Place

namespace StyleExports.Text

section

variable {s : List Char} {a b n : Nat}

theorem IsBoundary.exists_between (ha : IsBoundary s a) (hb : IsBoundary s b) (h : a < b) :
    ∃ u w v, s = u ++ w ++ v ∧ size u = a ∧ size (u ++ w) = b ∧ w ≠ [] := by
  obtain ⟨u, v, rfl, rfl⟩ := ha
  obtain ⟨u', v', hs, rfl⟩ := hb
  rcases List.append_eq_append_iff.mp hs with ⟨w, rfl, rfl⟩ | ⟨w, rfl, -⟩
  · refine ⟨u, w, v', by rw [List.append_assoc], rfl, rfl, ?_⟩
    rintro rfl
    simp at h
  · rw [size_append] at h
    omega

theorem takeSize_add (s t : List Char) (n : Nat) : takeSize (size s + n) (s ++ t) = s ++ takeSize n t := by
  induction s with
  | nil => rw [size_nil, Nat.zero_add, List.nil_append, List.nil_append]
  | cons c s ih =>
    have rest : c.utf8Size + size s + n - c.utf8Size = size s + n := by omega
    rw [size_cons, List.cons_append, takeSize, if_pos (by omega), rest, ih, List.cons_append]

theorem takeSize_of_size_le (h : size s ≤ n) : takeSize n s = s := by
  induction s generalizing n with
  | nil => rfl
  | cons c s ih =>
    rw [size_cons] at h
    rw [takeSize, if_pos (by omega), ih (by omega)]

end

namespace Position

variable {p q : Position} {s u w : List Char}

def sinceFeed (s : List Char) : Nat := (s.reverse.takeWhile (· != '\n')).length

theorem sinceFeed_concat (s : List Char) (c : Char) :
    sinceFeed (s ++ [c]) = if c = '\n' then 0 else sinceFeed s + 1 := by
  rw [sinceFeed, List.reverse_concat, List.takeWhile_cons]
  by_cases h : c = '\n'
  · simp [h]
  · simp [h, sinceFeed]

theorem count_concat (s : List Char) (c : Char) :
    (s ++ [c]).count '\n' = s.count '\n' + if c = '\n' then 1 else 0 := by
  rw [List.count_append, List.count_singleton]
  simp

theorem column_after (s : List Char) : (after s).column = .ofNat (sinceFeed s) + 1 := by
  induction s using List.reverseRecOn with
  | nil => rfl
  | append_singleton s c ih =>
    rw [after_concat, sinceFeed_concat]
    split
    · rfl
    · rw [ih, UInt32.ofNat_add]
      rfl

/-- A position comes before another by its line, or within a line by its column. -/
def Precedes (p q : Position) : Prop := p.line < q.line ∨ p.line = q.line ∧ p.column < q.column

theorem Precedes.apart (h : p.Precedes q) : (p.line, p.column) ≠ (q.line, q.column) := by
  intro he
  obtain ⟨line, column⟩ := Prod.mk.inj he
  rcases h with h | ⟨-, h⟩
  · exact absurd (line ▸ h) (UInt32.lt_irrefl _)
  · exact absurd (column ▸ h) (UInt32.lt_irrefl _)

/-- Over a character a position goes to the next column, or to the first of the next line. -/
def Steps (c : Char) (p q : Position) : Prop :=
  if c = '\n' then q.line.toNat = p.line.toNat + 1 ∧ q.column = 1
  else q.line = p.line ∧ q.column.toNat = p.column.toNat + 1

/-- One byte shorter than `2 ^ 32`, and with a line feed in every byte or a column in every byte. -/
def IsWidest (s : List Char) : Prop :=
  size s + 1 = UInt32.size ∧ ((∀ c ∈ s, c = '\n') ∨ ∀ c ∈ s, c ≠ '\n' ∧ c.utf8Size = 1)

theorem count_le (s : List Char) :
    s.count '\n' ≤ size s ∧ (s.count '\n' = size s → ∀ c ∈ s, c = '\n') := by
  induction s with
  | nil => exact ⟨Nat.le_refl 0, fun _ => List.forall_mem_nil _⟩
  | cons c s ih =>
    have bytes := c.utf8Size_pos
    rw [List.count_cons, size_cons, List.forall_mem_cons]
    by_cases h : c = '\n'
    · have one : c.utf8Size = 1 := by rw [h]; rfl
      rw [if_pos (by simpa using h)]
      exact ⟨by omega, fun same => ⟨h, ih.2 (by omega)⟩⟩
    · rw [if_neg (by simpa using h)]
      exact ⟨by omega, fun same => by omega⟩

theorem sinceFeed_le (s : List Char) :
    sinceFeed s ≤ size s ∧ (sinceFeed s = size s → ∀ c ∈ s, c ≠ '\n' ∧ c.utf8Size = 1) := by
  induction s using List.reverseRecOn with
  | nil => exact ⟨Nat.le_refl 0, fun _ => List.forall_mem_nil _⟩
  | append_singleton s c ih =>
    have bytes := c.utf8Size_pos
    rw [sinceFeed_concat, size_append, size_cons, size_nil]
    by_cases h : c = '\n'
    · rw [if_pos h]
      exact ⟨Nat.zero_le _, fun same => by omega⟩
    · rw [if_neg h]
      refine ⟨by omega, fun same d hd => ?_⟩
      rcases List.mem_append.mp hd with hd | hd
      · exact ih.2 (by omega) d hd
      · rw [List.mem_singleton.mp hd]
        exact ⟨h, by omega⟩

theorem toNat_ofNat_succ {n : Nat} (h : n + 1 < UInt32.size) : (UInt32.ofNat n + 1).toNat = n + 1 := by
  rw [show UInt32.ofNat n + 1 = .ofNat (n + 1) from (UInt32.ofNat_add n 1).symm,
    UInt32.toNat_ofNat_of_lt' h]

/-- The words count what they are meant to count. -/
theorem after_counts (hs : size s < UInt32.size) (hw : ¬IsWidest s) :
    (after s).line.toNat = s.count '\n' + 1 ∧ (after s).column.toNat = sinceFeed s + 1 := by
  obtain ⟨feeds, allFeeds⟩ := count_le s
  obtain ⟨columns, allColumns⟩ := sinceFeed_le s
  have line : s.count '\n' + 1 < UInt32.size := by
    by_contra h
    exact hw ⟨by omega, .inl (allFeeds (by omega))⟩
  have column : sinceFeed s + 1 < UInt32.size := by
    by_contra h
    exact hw ⟨by omega, .inr (allColumns (by omega))⟩
  rw [column_after]
  exact ⟨toNat_ofNat_succ line, toNat_ofNat_succ column⟩

theorem count_eq_size (h : ∀ c ∈ s, c = '\n') : s.count '\n' = size s := by
  induction s with
  | nil => rfl
  | cons c s ih =>
    obtain ⟨rfl, rest⟩ := List.forall_mem_cons.mp h
    rw [List.count_cons_self, ih rest, size_cons, Nat.add_comm]
    rfl

theorem sinceFeed_eq_size (h : ∀ c ∈ s, c ≠ '\n' ∧ c.utf8Size = 1) : sinceFeed s = size s := by
  induction s using List.reverseRecOn with
  | nil => rfl
  | append_singleton s c ih =>
    obtain ⟨other, one⟩ := h c (by simp)
    rw [sinceFeed_concat, if_neg other, ih fun d hd => h d (List.mem_append_left _ hd), size_append,
      size_cons, one]
    rfl

theorem after_widest (h : IsWidest s) :
    (after s).line = 0 ∨ (after s).line = 1 ∧ (after s).column = 0 := by
  obtain ⟨hs, shape⟩ := h
  have wrapped : UInt32.ofNat (size s) + 1 = 0 := by
    refine (UInt32.ofNat_add (size s) 1).symm.trans ?_
    rw [hs]
    rfl
  rcases shape with feeds | columns
  · rw [← count_eq_size feeds] at wrapped
    exact .inl wrapped
  · have none : s.count '\n' = 0 := List.count_eq_zero.mpr fun h => (columns _ h).1 rfl
    have line : (after s).line = 1 := by
      change UInt32.ofNat (s.count '\n') + 1 = 1
      rw [none]
      rfl
    rw [← sinceFeed_eq_size columns, ← column_after] at wrapped
    exact .inr ⟨line, wrapped⟩

theorem isWidest_left (hs : size (s ++ w) < UInt32.size) :
    IsWidest s ↔ w = [] ∧ IsWidest (s ++ w) := by
  constructor
  · intro hw
    have none : w = [] := by
      by_contra h
      have longer := size_pos_of_ne_nil h
      have widest := hw.1
      rw [size_append] at hs
      omega
    subst none
    rw [List.append_nil]
    exact ⟨rfl, hw⟩
  · rintro ⟨rfl, hw⟩
    rwa [List.append_nil] at hw

/-- In front of the end, too, the words count what they are meant to count. -/
theorem counts_left (hs : size (s ++ w) < UInt32.size) (h : w ≠ []) :
    (after s).line.toNat = s.count '\n' + 1 ∧ (after s).column.toNat = sinceFeed s + 1 := by
  have shorter : size s < UInt32.size := by
    rw [size_append] at hs
    omega
  exact after_counts shorter fun hw => h ((isWidest_left hs).mp hw).1

theorem counts_append (s : List Char) (h : w ≠ []) :
    s.count '\n' < (s ++ w).count '\n' ∨
      s.count '\n' = (s ++ w).count '\n' ∧ sinceFeed s < sinceFeed (s ++ w) := by
  induction w using List.reverseRecOn with
  | nil => exact absurd rfl h
  | append_singleton w c ih =>
    rw [← List.append_assoc, count_concat, sinceFeed_concat]
    by_cases hw : w = []
    · rw [hw, List.append_nil]
      split <;> omega
    · have before := ih hw
      split <;> omega

theorem precedes_append (hs : size (s ++ w) < UInt32.size) (h : w ≠ []) :
    (after s).Precedes (after (s ++ w)) ↔ ¬IsWidest (s ++ w) := by
  obtain ⟨line, column⟩ := counts_left hs h
  unfold Precedes
  rw [UInt32.lt_iff_toNat_lt, UInt32.lt_iff_toNat_lt, ← UInt32.toNat_inj]
  constructor
  · intro order hw
    rcases after_widest hw with wrapped | ⟨first, wrapped⟩
    · rw [wrapped, UInt32.toNat_zero] at order
      omega
    · rw [first, wrapped, UInt32.toNat_one, UInt32.toNat_zero] at order
      omega
  · intro hw
    obtain ⟨line', column'⟩ := after_counts hs hw
    have order := counts_append s h
    omega

theorem steps_concat (c : Char) (hs : size (s ++ [c]) < UInt32.size) :
    Steps c (after s) (after (s ++ [c])) ↔ ¬IsWidest (s ++ [c]) := by
  obtain ⟨line, column⟩ := counts_left hs (List.cons_ne_nil c [])
  constructor
  · intro step hw
    have wrapped := after_widest hw
    unfold Steps at step
    rw [← UInt32.toNat_inj, ← UInt32.toNat_inj, ← UInt32.toNat_inj, UInt32.toNat_zero,
      UInt32.toNat_one] at wrapped
    split at step
    · rw [← UInt32.toNat_inj, UInt32.toNat_one] at step
      omega
    · rw [← UInt32.toNat_inj] at step
      omega
  · intro hw
    obtain ⟨line', column'⟩ := after_counts hs hw
    rw [count_concat] at line'
    rw [sinceFeed_concat] at column'
    unfold Steps
    by_cases h : c = '\n'
    · rw [if_pos h] at line' column' ⊢
      rw [← UInt32.toNat_inj, UInt32.toNat_one]
      omega
    · rw [if_neg h] at line' column' ⊢
      rw [← UInt32.toNat_inj]
      omega

theorem ofOffset_of_size_le {n : Nat} (h : size s ≤ n) : ofOffset s n = after s := by
  rw [ofOffset, takeSize_of_size_le h]

theorem precedes_iff {a b : Nat} (ha : IsBoundary s a) (hb : IsBoundary s b) (h : a < b)
    (hs : size s < UInt32.size) :
    (ofOffset s a).Precedes (ofOffset s b) ↔ ¬(b = size s ∧ IsWidest s) := by
  obtain ⟨u, w, v, rfl, rfl, rfl, hw⟩ := ha.exists_between hb h
  have front : size (u ++ w) < UInt32.size := by
    rw [size_append] at hs
    omega
  have last : size (u ++ w) = size (u ++ w ++ v) ↔ v = [] := by
    constructor
    · intro same
      by_contra hv
      have longer := size_pos_of_ne_nil hv
      rw [size_append (u ++ w)] at same
      omega
    · rintro rfl
      rw [List.append_nil]
  rw [ofOffset_boundary, List.append_assoc, ofOffset_boundary, precedes_append front hw,
    isWidest_left hs, ← List.append_assoc, last]

/-- Where a word has wrapped around, it is zero, as it is nowhere in front of the end. -/
theorem apart_of_isWidest {a : Nat} (ha : IsBoundary s a) (h : a < size s) (hs : size s < UInt32.size)
    (hw : IsWidest s) : ((ofOffset s a).line, (ofOffset s a).column) ≠
      ((ofOffset s (size s)).line, (ofOffset s (size s)).column) := by
  obtain ⟨u, v, rfl, rfl⟩ := ha
  have rest : v ≠ [] := by
    rintro rfl
    simp at h
  obtain ⟨line, column⟩ := counts_left hs rest
  rw [ofOffset_boundary, ofOffset_of_size_le (Nat.le_refl _)]
  intro same
  obtain ⟨sameLine, sameColumn⟩ := Prod.mk.inj same
  rcases after_widest hw with wrapped | ⟨-, wrapped⟩
  · rw [sameLine, wrapped, UInt32.toNat_zero] at line
    omega
  · rw [sameColumn, wrapped, UInt32.toNat_zero] at column
    omega

/-- The place of a position when the text stands on the lines behind another one. -/
def behind (s : List Char) (p : Position) : Position :=
  ⟨size s + 1 + p.offset, .ofNat (s.count '\n') + 1 + p.line, p.column⟩

theorem after_behind (s t : List Char) : after (s ++ '\n' :: t) = (after t).behind s := by
  have offset : size (s ++ '\n' :: t) = size s + 1 + size t := by
    rw [size_append, size_cons, Nat.add_assoc]
    rfl
  have line : lineAfter (s ++ '\n' :: t) = .ofNat (s.count '\n') + 1 + lineAfter t := by
    have feeds : s.count '\n' + (t.count '\n' + 1) = s.count '\n' + 1 + t.count '\n' := by omega
    rw [lineAfter, lineAfter, List.count_append, List.count_cons_self, feeds, UInt32.ofNat_add,
      UInt32.ofNat_add, UInt32.add_assoc]
    rfl
  rw [after, offset, line, columnAfter_append, columnAfter, if_pos rfl]
  rfl

theorem ofOffset_behind (s t : List Char) (n : Nat) :
    ofOffset (s ++ '\n' :: t) (size s + 1 + n) = (ofOffset t n).behind s := by
  have shape (u : List Char) : s ++ '\n' :: u = s ++ ['\n'] ++ u := by rw [List.append_assoc]; rfl
  have width : size s + 1 = size (s ++ ['\n']) := by rw [size_append]; rfl
  rw [ofOffset, shape, width, takeSize_add, ← shape, after_behind]
  rfl

/-- In a source shorter than `2 ^ 32` bytes the later of two places has the later position, no two places
share a line and a column, and a character is one column, or a line feed the end of a line. Only at the end
of a source that is one byte shorter than `2 ^ 32`, and all line feeds or all columns of one byte, the line or
the column wraps around to zero. What is behind the end stands for the end. -/
theorem ofOffset_precedes (s : List Char) (hs : size s < UInt32.size) :
    (∀ a b, IsBoundary s a → IsBoundary s b → a < b →
      ((ofOffset s a).Precedes (ofOffset s b) ↔ ¬(b = size s ∧ IsWidest s))) ∧
    (∀ a b, IsBoundary s a → IsBoundary s b → a ≠ b →
      ((ofOffset s a).line, (ofOffset s a).column) ≠ ((ofOffset s b).line, (ofOffset s b).column)) ∧
    (∀ a, IsBoundary s a → (ofOffset s a).offset = a) ∧
    (∀ u c v, s = u ++ c :: v →
      Span.charAt s (size u) = ⟨ofOffset s (size u), ofOffset s (size u + c.utf8Size)⟩ ∧
      (Steps c (ofOffset s (size u)) (ofOffset s (size u + c.utf8Size)) ↔ ¬(v = [] ∧ IsWidest s))) ∧
    ∀ n, size s ≤ n → ofOffset s n = ofOffset s (size s) ∧ (ofOffset s n).offset = size s := by
  have order {a b : Nat} (ha : IsBoundary s a) (hb : IsBoundary s b) (h : a < b) :=
    precedes_iff ha hb h hs
  have apart {a b : Nat} (ha : IsBoundary s a) (hb : IsBoundary s b) (h : a < b) :
      ((ofOffset s a).line, (ofOffset s a).column) ≠ ((ofOffset s b).line, (ofOffset s b).column) := by
    by_cases hw : b = size s ∧ IsWidest s
    · exact hw.1 ▸ apart_of_isWidest ha (hw.1 ▸ h) hs hw.2
    · exact ((order ha hb h).mpr hw).apart
  refine ⟨fun a b => order, fun a b ha hb hne => ?_, fun a ha => ?_, ?_, fun n h => ?_⟩
  · rcases Nat.lt_or_gt_of_ne hne with h | h
    · exact apart ha hb h
    · exact (apart hb ha h).symm
  · obtain ⟨u, v, rfl, rfl⟩ := ha
    rw [ofOffset_boundary]
    rfl
  · rintro u c v rfl
    have whole : u ++ c :: v = u ++ [c] ++ v := by rw [List.append_assoc]; rfl
    have width : size u + c.utf8Size = size (u ++ [c]) := by rw [size_append]; rfl
    have front : size (u ++ [c]) < UInt32.size := by
      rw [whole, size_append] at hs
      omega
    rw [charAt_boundary, ofOffset_boundary, width, whole, ofOffset_boundary, steps_concat c front,
      isWidest_left (whole ▸ hs)]
    exact ⟨rfl, Iff.rfl⟩
  · rw [ofOffset_of_size_le h, ofOffset_of_size_le (Nat.le_refl _)]
    exact ⟨rfl, rfl⟩

/-- The text has a character of two bytes in front of the line feed, and one of four behind it. -/
theorem ofOffset_precedes_wide :
    let s := "aé\n😀b".toList
    size s < UInt32.size ∧ IsBoundary s 4 ∧ IsBoundary s 8 ∧
    (ofOffset s 4).Precedes (ofOffset s 8) ∧
    Span.charAt s 4 = ⟨⟨4, 2, 1⟩, ⟨8, 2, 2⟩⟩ ∧ Steps '😀' (ofOffset s 4) (ofOffset s 8) := by
  intro s
  have small : size s < UInt32.size := by decide
  have first : IsBoundary s 4 := ⟨"aé\n".toList, "😀b".toList, rfl, rfl⟩
  have second : IsBoundary s 8 := ⟨"aé\n😀".toList, "b".toList, rfl, rfl⟩
  obtain ⟨order, -, -, step, -⟩ := ofOffset_precedes s small
  obtain ⟨span, steps⟩ := step "aé\n".toList '😀' ['b'] rfl
  have inside : ¬(8 = size s ∧ IsWidest s) := fun h => absurd h.1 (by decide)
  exact ⟨small, first, second, (order 4 8 first second (by decide)).mpr inside, span,
    steps.mpr fun h => List.cons_ne_nil _ _ h.1⟩

theorem size_replicate (n : Nat) : size (List.replicate n 'a') = n := by
  induction n with
  | zero => rfl
  | succ n ih =>
    rw [List.replicate_succ, size_cons, ih, Nat.add_comm]
    rfl

theorem after_replicate (n : Nat) : after (List.replicate n 'a') = ⟨n, 1, .ofNat n + 1⟩ := by
  have columns : sinceFeed (List.replicate n 'a') = n := by
    refine (sinceFeed_eq_size fun c hc => ?_).trans (size_replicate n)
    rw [List.eq_of_mem_replicate hc]
    exact ⟨by decide, rfl⟩
  have line : lineAfter (List.replicate n 'a') = 1 := by
    rw [lineAfter, List.count_replicate]
    rfl
  ext1
  · exact size_replicate n
  · exact line
  · rw [column_after, columns]

/-- The column behind `2 ^ 32 - 1` characters is zero, and does not come after the first one. -/
theorem not_precedes_widest :
    let s := List.replicate (UInt32.size - 1) 'a'
    size s < UInt32.size ∧ IsBoundary s 0 ∧ IsBoundary s (size s) ∧ 0 < size s ∧
    ofOffset s 0 = ⟨0, 1, 1⟩ ∧ ofOffset s (size s) = ⟨UInt32.size - 1, 1, 0⟩ ∧
    ¬(ofOffset s 0).Precedes (ofOffset s (size s)) := by
  generalize hn : UInt32.size - 1 = n
  intro s
  have length : size s = n := size_replicate n
  have first : ofOffset s 0 = ⟨0, 1, 1⟩ := ofOffset_boundary (u := [])
  have last : ofOffset s (size s) = ⟨n, 1, 0⟩ := by
    rw [ofOffset_of_size_le (Nat.le_refl _), after_replicate, ← hn]
    rfl
  refine ⟨?_, ⟨[], s, rfl, rfl⟩, ⟨s, [], (List.append_nil s).symm, rfl⟩, ?_, first, last, ?_⟩
  · rw [length, ← hn]
    decide
  · rw [length, ← hn]
    decide
  · rw [first, last]
    rintro (line | ⟨-, column⟩)
    · exact UInt32.lt_irrefl 1 line
    · exact absurd column (by decide : ¬(1 : UInt32) < 0)

end Position

end StyleExports.Text
