import StyleExports.Build.Compiler
import StyleExports.Proofs.EsModule.Reads
import StyleExports.Proofs.Text.Insert
import StyleExports.Proofs.Text.Place

namespace StyleExports

open Text

namespace Compiler

/-- The class names in a text that begins at an offset, each with the offset at which it begins. -/
def usesFrom : Place → Nat → List Char → List (Nat × List Char)
  | _, _, [] => []
  | p, n, c :: s =>
    let q := p.next c
    let after := usesFrom q (n + c.utf8Size) s
    if p = .dot ∧ q = .name then (n, (c :: s).takeWhile isClassChar) :: after else after

def uses (n : Nat) (selector : List Char) : List (Nat × List Char) := usesFrom .outside n selector

section

variable {p : Place} {c : Char}

theorem afterName_ne_name (c : Char) : Place.afterName c ≠ .name := by
  unfold Place.afterName
  split
  · simp
  · split <;> simp

/-- A name goes on with its characters, or begins behind a dot. -/
theorem next_eq_name : p.next c = .name ↔
    isClassChar c = true ∧ (p = .name ∨ p = .dot ∧ c.isDigit = false) := by
  have after := afterName_ne_name c
  cases p with
  | bracket => by_cases h : c = ']' <;> simp [Place.next, h]
  | outside => simpa [Place.next] using after
  | dot => cases hd : c.isDigit <;> cases hc : isClassChar c <;> simp [Place.next, hd, hc, after]
  | name => cases hc : isClassChar c <;> simp [Place.next, hc, after]
  | number => cases hc : isClassChar c <;> simp [Place.next, hc, after]

/-- What ends a name is read as it is outside of names. -/
theorem next_name (h : isClassChar c = false) : Place.name.next c = Place.outside.next c := by
  simp [Place.next, h]

end

/-- A text is read character by character outside of names, and name by name. -/
theorem name_induction {motive : Place → List Char → Prop} (nil : ∀ p, p ≠ .name → motive p [])
    (char : ∀ p c s, p ≠ .name → p.next c ≠ .name → motive (p.next c) s → motive p (c :: s))
    (name : ∀ c w v, Place.dot.next c = .name → (∀ d ∈ w, isClassChar d = true) →
      (∀ d ∈ v.head?, isClassChar d = false) → motive .outside v → motive .dot (c :: (w ++ v)))
    (p : Place) (hp : p ≠ .name) (s : List Char) : motive p s := by
  induction hl : s.length using Nat.strong_induction_on generalizing p s with
  | _ l ih =>
    match s with
    | [] => exact nil p hp
    | c :: s =>
      rw [List.length_cons] at hl
      by_cases hq : p.next c = .name
      · obtain rfl : p = .dot := ((next_eq_name.mp hq).2.resolve_left hp).1
        obtain ⟨w, hw, hs⟩ := exists_dropWhile isClassChar s
        have shorter : (s.dropWhile isClassChar).length ≤ s.length := List.length_dropWhile_le ..
        rw [hs]
        refine name c w _ hq hw (fun d hd => ?_) (ih _ (by omega) .outside (by simp) _ rfl)
        obtain ⟨t, ht⟩ := List.head?_eq_some_iff.mp hd
        exact head_dropWhile_of_cons ht
      · exact char p c s hp hq (ih _ (by omega) (p.next c) hq s rfl)

section

variable {f : List Char → List Char} {p : Place} {n : Nat} {c : Char} {x w v s : List Char}

theorem classNamesFrom_char (hp : p ≠ .name) (hq : p.next c ≠ .name) :
    classNamesFrom p [] (c :: s) = classNamesFrom (p.next c) [] s := by
  rw [classNamesFrom, if_neg hq, if_neg hp]

theorem suffixedFrom_char (hp : p ≠ .name) (hq : p.next c ≠ .name) :
    suffixedFrom f p [] (c :: s) = c :: suffixedFrom f (p.next c) [] s := by
  rw [suffixedFrom, if_neg hq, if_neg hp]

theorem usesFrom_char (hq : p.next c ≠ .name) :
    usesFrom p n (c :: s) = usesFrom (p.next c) (n + c.utf8Size) s := by
  rw [usesFrom, if_neg fun h => hq h.2]

theorem classNamesFrom_rest (hw : ∀ d ∈ w, isClassChar d = true)
    (hv : ∀ d ∈ v.head?, isClassChar d = false) :
    classNamesFrom .name x (w ++ v) = (x.reverse ++ w) :: classNamesFrom .outside [] v := by
  induction w generalizing x with
  | nil =>
    rw [List.append_nil, List.nil_append]
    cases v with
    | nil => rfl
    | cons d v =>
      have same := next_name (hv d rfl)
      have out : Place.outside.next d ≠ .name := afterName_ne_name d
      rw [classNamesFrom, same, if_neg out, if_pos rfl, classNamesFrom_char (by simp) out]
  | cons d w ih =>
    rw [List.forall_mem_cons] at hw
    have on : Place.name.next d = .name := next_eq_name.mpr ⟨hw.1, .inl rfl⟩
    rw [List.cons_append, classNamesFrom, if_pos on, on, ih hw.2, List.reverse_cons,
      List.append_assoc, List.singleton_append]

theorem suffixedFrom_rest (hw : ∀ d ∈ w, isClassChar d = true)
    (hv : ∀ d ∈ v.head?, isClassChar d = false) :
    suffixedFrom f .name x (w ++ v) =
      w ++ (f (x.reverse ++ w) ++ suffixedFrom f .outside [] v) := by
  induction w generalizing x with
  | nil =>
    rw [List.append_nil, List.nil_append, List.nil_append]
    cases v with
    | nil => exact (List.append_nil _).symm
    | cons d v =>
      have same := next_name (hv d rfl)
      have out : Place.outside.next d ≠ .name := afterName_ne_name d
      rw [suffixedFrom, same, if_neg out, if_pos rfl, suffixedFrom_char (by simp) out]
  | cons d w ih =>
    rw [List.forall_mem_cons] at hw
    have on : Place.name.next d = .name := next_eq_name.mpr ⟨hw.1, .inl rfl⟩
    rw [List.cons_append, suffixedFrom, if_pos on, on, ih hw.2, List.reverse_cons,
      List.append_assoc, List.singleton_append, List.cons_append]

theorem usesFrom_rest (hw : ∀ d ∈ w, isClassChar d = true)
    (hv : ∀ d ∈ v.head?, isClassChar d = false) :
    usesFrom .name n (w ++ v) = usesFrom .outside (n + size w) v := by
  induction w generalizing n with
  | nil =>
    cases v with
    | nil => rfl
    | cons d v =>
      have same := next_name (hv d rfl)
      have out : Place.outside.next d ≠ .name := afterName_ne_name d
      rw [List.nil_append, usesFrom_char (same ▸ out), usesFrom_char out, same]
      rfl
  | cons d w ih =>
    rw [List.forall_mem_cons] at hw
    have on : Place.name.next d = .name := next_eq_name.mpr ⟨hw.1, .inl rfl⟩
    rw [List.cons_append, usesFrom, if_neg (by simp), on, ih hw.2, size_cons, Nat.add_assoc]

theorem classNamesFrom_name (hc : Place.dot.next c = .name) (hw : ∀ d ∈ w, isClassChar d = true)
    (hv : ∀ d ∈ v.head?, isClassChar d = false) :
    classNamesFrom .dot [] (c :: (w ++ v)) = (c :: w) :: classNamesFrom .outside [] v := by
  rw [classNamesFrom, if_pos hc, hc, classNamesFrom_rest hw hv]
  rfl

theorem suffixedFrom_name (hc : Place.dot.next c = .name) (hw : ∀ d ∈ w, isClassChar d = true)
    (hv : ∀ d ∈ v.head?, isClassChar d = false) :
    suffixedFrom f .dot [] (c :: (w ++ v)) =
      c :: (w ++ (f (c :: w) ++ suffixedFrom f .outside [] v)) := by
  rw [suffixedFrom, if_pos hc, hc, suffixedFrom_rest hw hv]
  rfl

theorem takeWhile_name (hc : Place.dot.next c = .name) (hw : ∀ d ∈ w, isClassChar d = true)
    (hv : ∀ d ∈ v.head?, isClassChar d = false) :
    (c :: (w ++ v)).takeWhile isClassChar = c :: w := by
  have stop : v.takeWhile isClassChar = [] := by
    cases v with
    | nil => rfl
    | cons d v => exact List.takeWhile_cons_of_neg (by simp [hv d rfl])
  rw [List.takeWhile_cons_of_pos (next_eq_name.mp hc).1, List.takeWhile_append_of_pos hw, stop,
    List.append_nil]

theorem usesFrom_name (hc : Place.dot.next c = .name) (hw : ∀ d ∈ w, isClassChar d = true)
    (hv : ∀ d ∈ v.head?, isClassChar d = false) : usesFrom .dot n (c :: (w ++ v)) =
      (n, c :: w) :: usesFrom .outside (n + size (c :: w)) v := by
  rw [usesFrom, if_pos ⟨rfl, hc⟩, takeWhile_name hc hw hv, hc, usesFrom_rest hw hv, size_cons,
    Nat.add_assoc]

end

variable {p : Place} {s b : List Char}

theorem map_usesFrom (hp : p ≠ .name) (n : Nat) (s : List Char) :
    (usesFrom p n s).map (·.2) = classNamesFrom p [] s := by
  refine name_induction (motive := fun p s => ∀ n, (usesFrom p n s).map (·.2) =
    classNamesFrom p [] s) ?_ ?_ ?_ p hp s n
  · intro p hp n
    rw [usesFrom, classNamesFrom, if_neg hp]
    rfl
  · intro p c s hp hq ih n
    rw [usesFrom_char hq, classNamesFrom_char hp hq, ih]
  · intro c w v hc hw hv ih n
    rw [usesFrom_name hc hw hv, classNamesFrom_name hc hw hv, List.map_cons, ih]

def useEnd (e : Nat × List Char) : Nat := e.1 + size e.2

theorem inOrder_usesFrom (hp : p ≠ .name) (n : Nat) (s : List Char) :
    InOrder (·.1) useEnd (usesFrom p n s) n (n + size s) := by
  refine name_induction (motive := fun p s => ∀ n,
    InOrder (·.1) useEnd (usesFrom p n s) n (n + size s)) ?_ ?_ ?_ p hp s n
  · exact fun p hp n => .nil
  · intro p c s hp hq ih n
    rw [usesFrom_char hq, size_cons]
    exact (ih _).mono (by omega) (by omega)
  · intro c w v hc hw hv ih n
    have := c.utf8Size_pos
    have here : InOrder (·.1) useEnd [(n, c :: w)] n (n + size (c :: w)) :=
      .singleton (Nat.le_refl n) (by rw [useEnd, size_cons]; omega) (Nat.le_refl _)
    rw [usesFrom_name hc hw hv, ← List.cons_append, size_append, ← Nat.add_assoc]
    exact here.append (ih _) (by omega) (by omega)

/-- What goes behind a name, with the offset at which the name ends. -/
def suffixAt (f : List Char → List Char) (e : Nat × List Char) : Nat × List Char :=
  (useEnd e, f e.2)

theorem suffixedFrom_eq_insertAt (f : List Char → List Char) (hp : p ≠ .name) (n : Nat)
    (s : List Char) :
    suffixedFrom f p [] s = insertAt (textsAt ((usesFrom p n s).map (suffixAt f))) n s := by
  refine name_induction (motive := fun p s => ∀ n, suffixedFrom f p [] s =
    insertAt (textsAt ((usesFrom p n s).map (suffixAt f))) n s) ?_ ?_ ?_ p hp s n
  · intro p hp n
    rw [suffixedFrom, if_neg hp]
    rfl
  · intro p c s hp hq ih n
    have nothing : textsAt ((usesFrom (p.next c) (n + c.utf8Size) s).map (suffixAt f))
        (n + c.utf8Size) = [] := by
      refine textsAt_eq_nil fun e he => ?_
      obtain ⟨d, hd, rfl⟩ := List.mem_map.mp he
      have := (inOrder_usesFrom hq (n + c.utf8Size) s).inside d hd
      dsimp only [suffixAt]
      omega
    rw [suffixedFrom_char hp hq, usesFrom_char hq, insertAt, nothing, ← ih, List.nil_append]
  · intro c w v hc hw hv ih n
    have outside : Place.outside ≠ .name := by simp
    have later : ∀ e ∈ (usesFrom .outside (n + size (c :: w)) v).map (suffixAt f),
        n + size (c :: w) < e.1 := by
      intro e he
      obtain ⟨d, hd, rfl⟩ := List.mem_map.mp he
      have := (inOrder_usesFrom outside (n + size (c :: w)) v).inside d hd
      dsimp only [suffixAt]
      omega
    have whole : c :: (w ++ v) = (c :: w) ++ v := rfl
    have both : Inserts (textsAt (suffixAt f (n, c :: w) ::
        (usesFrom .outside (n + size (c :: w)) v).map (suffixAt f)))
        ([suffixAt f (n, c :: w)] ++ (usesFrom .outside (n + size (c :: w)) v).map (suffixAt f))
        n (n + size (c :: w) + size v) := fun _ _ _ => rfl
    rw [suffixedFrom_name hc hw hv, usesFrom_name hc hw hv, List.map_cons, whole, insertAt_append,
      (both.left (by omega) later).insertAt_end (by simp),
      (both.right (by omega) (by simp [suffixAt, useEnd])).insertAt_eq, ← ih, List.append_assoc]
    rfl

theorem isClassChar_of_isBlank {c : Char} (h : isBlank c = true) : isClassChar c = false := by
  have hi := EsModule.Scan.isIdentChar_of_isBlank h
  have hyphen : c ≠ '-' := by
    rintro rfl
    exact absurd h (by decide)
  simp only [EsModule.isIdentChar, Bool.or_eq_false_iff] at hi
  simp [isClassChar, hi.1.1, hi.1.2, hyphen]

theorem takeWhile_append_blanks (s : List Char) (hb : ∀ c ∈ b, isBlank c = true) :
    (s ++ b).takeWhile isClassChar = s.takeWhile isClassChar := by
  have stop : b.takeWhile isClassChar = [] := by
    cases b with
    | nil => rfl
    | cons c b =>
      exact List.takeWhile_cons_of_neg (by simp [isClassChar_of_isBlank (hb c List.mem_cons_self)])
  rw [List.takeWhile_append, stop, List.append_nil]
  split
  · rename_i h
    exact (List.IsPrefix.eq_of_length (List.takeWhile_prefix isClassChar) h).symm
  · rfl

theorem usesFrom_append_blanks (p : Place) (n : Nat) (s : List Char)
    (hb : ∀ c ∈ b, isBlank c = true) : usesFrom p n (s ++ b) = usesFrom p n s := by
  induction s generalizing p n with
  | nil =>
    rw [List.nil_append]
    induction b generalizing p n with
    | nil => rfl
    | cons c b ih =>
      rw [List.forall_mem_cons] at hb
      have out : p.next c ≠ .name := fun h => by
        simpa [isClassChar_of_isBlank hb.1] using (next_eq_name.mp h).1
      rw [usesFrom_char out, ih hb.2]
      rfl
  | cons c s ih =>
    rw [List.cons_append, usesFrom, usesFrom, ih, ← List.cons_append, takeWhile_append_blanks _ hb]

/-- One character or more that a class name may hold, a digit not the first of them. -/
structure IsClassName (w : List Char) : Prop where
  nonempty : w ≠ []
  chars : ∀ c ∈ w, isClassChar c = true
  first : ∀ c ∈ w.head?, c.isDigit = false

def InBracket (u : List Char) : Prop := ∃ a b, u = a ++ '[' :: b ∧ ']' ∉ b

theorem name_here_iff {c : Char} {w : List Char} :
    (Place.dot.next c = .name ∧ w = (c :: s).takeWhile isClassChar) ↔
      ∃ v, c :: s = w ++ v ∧ IsClassName w ∧ ∀ d ∈ v.head?, isClassChar d = false := by
  constructor
  · rintro ⟨hc, rfl⟩
    obtain ⟨on, first⟩ := next_eq_name.mp hc
    have run : (c :: s).takeWhile isClassChar = c :: s.takeWhile isClassChar :=
      List.takeWhile_cons_of_pos on
    refine ⟨(c :: s).dropWhile isClassChar, List.takeWhile_append_dropWhile.symm, ⟨?_, ?_, ?_⟩, ?_⟩
    · simp [run]
    · exact fun d hd => List.mem_takeWhile_imp hd
    · rw [run]
      exact forall_head?_cons (p := fun d => Char.isDigit d = false) (by simpa using first)
    · intro d hd
      obtain ⟨t, ht⟩ := List.head?_eq_some_iff.mp hd
      exact head_dropWhile_of_cons ht
  · rintro ⟨v, hs, name, hv⟩
    obtain ⟨d, w, rfl⟩ := List.exists_cons_of_ne_nil name.nonempty
    obtain ⟨rfl, rfl⟩ := List.cons.inj hs
    have chars := List.forall_mem_cons.mp name.chars
    have on : Place.dot.next c = .name := next_eq_name.mpr ⟨chars.1, .inr ⟨rfl, name.first c rfl⟩⟩
    exact ⟨on, (takeWhile_name on chars.2 hv).symm⟩

/-- A use is a class name that is read behind a dot and not cut short. -/
theorem mem_usesFrom {e : Nat × List Char} {n : Nat} : e ∈ usesFrom p n s ↔
    ∃ u v, s = u ++ (e.2 ++ v) ∧ e.1 = n + size u ∧ u.foldl Place.next p = .dot ∧
      IsClassName e.2 ∧ ∀ c ∈ v.head?, isClassChar c = false := by
  induction s generalizing p n with
  | nil =>
    constructor
    · exact fun h => absurd h List.not_mem_nil
    · rintro ⟨u, v, hs, -, -, name, -⟩
      exact absurd (List.append_eq_nil_iff.mp (List.append_eq_nil_iff.mp hs.symm).2).1 name.nonempty
  | cons c s ih =>
    have here : e ∈ usesFrom p n (c :: s) ↔
        (p = .dot ∧ e.1 = n ∧ Place.dot.next c = .name ∧ e.2 = (c :: s).takeWhile isClassChar) ∨
          e ∈ usesFrom (p.next c) (n + c.utf8Size) s := by
      rw [usesFrom]
      split
      · rename_i h
        obtain ⟨rfl, hc⟩ := h
        simp [Prod.ext_iff, hc]
      · rename_i h
        have never (hp : p = .dot) (hc : Place.dot.next c = .name) : False := h ⟨hp, hp ▸ hc⟩
        constructor
        · exact .inr
        · rintro (⟨hp, -, hc, -⟩ | h)
          · exact (never hp hc).elim
          · exact h
    rw [here, name_here_iff, ih]
    constructor
    · rintro (⟨rfl, hn, v, hs, name, hv⟩ | ⟨u, v, rfl, hn, hu, name, hv⟩)
      · exact ⟨[], v, hs, hn, rfl, name, hv⟩
      · exact ⟨c :: u, v, rfl, by rw [hn, size_cons, Nat.add_assoc], hu, name, hv⟩
    · rintro ⟨u, v, hs, hn, hu, name, hv⟩
      cases u with
      | nil => exact .inl ⟨hu, hn, v, hs, name, hv⟩
      | cons d u =>
        obtain ⟨rfl, rfl⟩ := List.cons.inj hs
        exact .inr ⟨u, v, rfl, by rw [hn, size_cons, Nat.add_assoc], hu, name, hv⟩

/-- Outside of brackets a bracket opens one and a dot comes before a name, wherever they stand. -/
theorem next_mark (hp : p ≠ .bracket) (c : Char) :
    (p.next c = .bracket ↔ c = '[') ∧ (p.next c = .dot ↔ c = '.') := by
  by_cases ho : c = '['
  · subst ho
    cases p <;> decide
  by_cases hd : c = '.'
  · subst hd
    cases p with
    | bracket => exact absurd rfl hp
    | _ => decide
  have after : Place.afterName c = .outside := by simp [Place.afterName, ho, hd]
  cases p with
  | bracket => exact absurd rfl hp
  | outside => simp [Place.next, after, ho, hd]
  | dot => cases h : c.isDigit <;> cases hc : isClassChar c <;> simp [Place.next, after, h, hc, ho, hd]
  | name => cases hc : isClassChar c <;> simp [Place.next, after, hc, ho, hd]
  | number => cases hc : isClassChar c <;> simp [Place.next, after, hc, ho, hd]

theorem next_bracket (c : Char) : Place.bracket.next c = .bracket ∧ c ≠ ']' ∨
    Place.bracket.next c = .outside ∧ c = ']' := by
  by_cases h : c = ']' <;> simp [Place.next, h]

theorem inBracket_concat {u : List Char} {c : Char} :
    InBracket (u ++ [c]) ↔ c = '[' ∨ InBracket u ∧ c ≠ ']' := by
  constructor
  · rintro ⟨a, b, hu, hb⟩
    rcases List.eq_nil_or_concat' b with rfl | ⟨b, d, rfl⟩
    · obtain ⟨-, h⟩ := List.append_inj' hu rfl
      exact .inl (List.cons.inj h).1
    · rw [← List.cons_append, ← List.append_assoc] at hu
      obtain ⟨rfl, h⟩ := List.append_inj' hu rfl
      obtain rfl := (List.cons.inj h).1
      rw [List.mem_append, not_or] at hb
      exact .inr ⟨⟨a, b, rfl, hb.1⟩, fun hc => hb.2 (by simp [hc])⟩
  · rintro (rfl | ⟨⟨a, b, rfl, hb⟩, hc⟩)
    · exact ⟨u, [], rfl, by simp⟩
    · exact ⟨a, b ++ [c], by simp, by simpa [hb] using Ne.symm hc⟩

theorem foldl_next (u : List Char) : (u.foldl Place.next .outside = .bracket ↔ InBracket u) ∧
    (u.foldl Place.next .outside = .dot ↔ ∃ t, u = t ++ ['.'] ∧ ¬ InBracket t) := by
  induction u using List.reverseRecOn with
  | nil => simp [InBracket]
  | append_singleton u c ih =>
    have last : (∃ t, u ++ [c] = t ++ ['.'] ∧ ¬ InBracket t) ↔ c = '.' ∧ ¬ InBracket u := by
      constructor
      · rintro ⟨t, ht, hu⟩
        obtain ⟨rfl, hc⟩ := List.append_inj' ht rfl
        exact ⟨(List.cons.inj hc).1, hu⟩
      · rintro ⟨rfl, hu⟩
        exact ⟨u, rfl, hu⟩
    rw [List.foldl_append, List.foldl_cons, List.foldl_nil, inBracket_concat, last, ← ih.1]
    by_cases hb : u.foldl Place.next .outside = .bracket
    · rw [hb]
      rcases next_bracket c with ⟨h, hc⟩ | ⟨h, rfl⟩
      · simp [h, hc]
      · simp [h]
    · simp [next_mark hb c, hb]

/-- The uses of a selector are the class names behind its dots, but for those in square brackets. -/
theorem mem_uses {e : Nat × List Char} {n : Nat} : e ∈ uses n s ↔
    ∃ u v, s = u ++ '.' :: (e.2 ++ v) ∧ e.1 = n + size u + 1 ∧ ¬ InBracket u ∧
      IsClassName e.2 ∧ ∀ c ∈ v.head?, isClassChar c = false := by
  rw [uses, mem_usesFrom]
  constructor
  · rintro ⟨u, v, rfl, hn, hu, name, hv⟩
    obtain ⟨t, rfl, ht⟩ := (foldl_next u).2.mp hu
    refine ⟨t, v, by simp, ?_, ht, name, hv⟩
    rw [hn, size_append, ← Nat.add_assoc]
    rfl
  · rintro ⟨u, v, rfl, hn, hu, name, hv⟩
    refine ⟨u ++ ['.'], v, by simp, ?_, (foldl_next _).2.mpr ⟨u, rfl, hu⟩, name, hv⟩
    rw [hn, size_append, ← Nat.add_assoc]
    rfl

end Compiler

end StyleExports
