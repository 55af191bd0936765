import StyleExports.Proofs.EsModule.Scan

namespace StyleExports.EsModule

open Text

/-- What stands before a significant character is not looked at, unless the character may be the
end of a word that began there. -/
theorem regexAllowed_append_cons (s : List Char) {c : Char} {p q : List Char}
    (hc : isSpace c = false) (hp : isIdentChar c → ∀ d ∈ p.head?, isIdentChar d = false)
    (hq : isIdentChar c → ∀ d ∈ q.head?, isIdentChar d = false) :
    regexAllowed (s ++ c :: p) = regexAllowed (s ++ c :: q) := by
  have take (b a : List Char) (ha : isIdentChar c → ∀ d ∈ a.head?, isIdentChar d = false) :
      (b ++ c :: a).takeWhile isIdentChar = (b ++ [c]).takeWhile isIdentChar := by
    induction b with
    | nil =>
      by_cases hi : isIdentChar c
      · cases a with
        | nil => rfl
        | cons d a => simp [hi, ha hi d rfl]
      · simp [hi]
    | cons d b ih => simp only [List.cons_append, List.takeWhile_cons, ih]
  unfold regexAllowed
  rw [dropWhile_append_cons hc, dropWhile_append_cons hc]
  cases s.dropWhile isSpace with
  | nil =>
    simp only [List.nil_append]
    rw [show c :: p = [] ++ c :: p from rfl, show c :: q = [] ++ c :: q from rfl, take [] p hp,
      take [] q hq]
  | cons d b =>
    simp only [List.cons_append]
    rw [← List.cons_append, ← List.cons_append, take (d :: b) p hp, take (d :: b) q hq]

namespace Scan

/-- Statements read so far that no text after them tells apart. -/
structure Alike (st u : Scan) : Prop where
  brackets : st.brackets = u.brackets
  complete : isComplete st.last = isComplete u.last
  mode : st.mode = u.mode
  regex : ∀ s, regexAllowed (s ++ st.before) = regexAllowed (s ++ u.before)

/-- Steps that lead to statements alike, or end both in the same way. -/
inductive StepAlike : Except Placed Step → Except Placed Step → Prop where
  | more {st u : Scan} (h : st.Alike u) : StepAlike (.ok (.more st)) (.ok (.more u))
  | endsBefore : StepAlike (.ok .endsBefore) (.ok .endsBefore)
  | endsWith : StepAlike (.ok .endsWith) (.ok .endsWith)
  | error (e f : Placed) : StepAlike (.error e) (.error f)

section

variable {st u : Scan} {c : Char}

theorem plainStep_alike (r : List Char) (hb : st.brackets = u.brackets)
    (hl : isComplete st.last = isComplete u.last)
    (hr : c = '/' → regexAllowed st.before = regexAllowed u.before)
    (hc : ∀ s, regexAllowed (s ++ c :: st.before) = regexAllowed (s ++ c :: u.before)) :
    StepAlike (st.plainStep c r) (u.plainStep c r) := by
  unfold plainStep
  cases Literal.open? c with
  | some l => exact .more ⟨hb, hl, rfl, hc⟩
  | none =>
    simp only [hb, hl]
    by_cases h1 : c = '/'
    · simp only [if_pos h1, hr h1]
      exact .more ⟨hb, hl, rfl, hc⟩
    by_cases h2 : c = '(' ∨ c = '[' ∨ c = '{'
    · simp only [if_neg h1, if_pos h2]
      exact .more ⟨rfl, rfl, rfl, hc⟩
    by_cases h3 : c = ')' ∨ c = ']' ∨ c = '}'
    · simp only [if_neg h1, if_neg h2, if_pos h3]
      cases u.brackets with
      | nil => exact .error _ _
      | cons b bs =>
        by_cases ho : b = opening c
        · simp only [if_pos ho]
          exact .more ⟨rfl, rfl, rfl, hc⟩
        · simp only [if_neg ho]
          exact .error _ _
    simp only [if_neg h1, if_neg h2, if_neg h3]
    split
    · exact .endsWith
    split
    · exact .endsBefore
    split
    · exact .more ⟨hb, hl, rfl, hc⟩
    · exact .more ⟨hb, rfl, rfl, hc⟩

theorem regexStep_alike (inClass esc : Bool) (hb : st.brackets = u.brackets)
    (hl : isComplete st.last = isComplete u.last)
    (hc : ∀ s, regexAllowed (s ++ c :: st.before) = regexAllowed (s ++ c :: u.before)) :
    StepAlike (st.regexStep inClass esc c) (u.regexStep inClass esc c) := by
  unfold regexStep
  repeat' split
  all_goals first
    | exact .error _ _
    | exact .more ⟨hb, hl, rfl, hc⟩
    | exact .more ⟨hb, rfl, rfl, hc⟩

/-- One character keeps statements alike. It is enough that they are so behind the character,
unless it is a slash. -/
theorem step_alike (r : List Char) (hb : st.brackets = u.brackets)
    (hl : isComplete st.last = isComplete u.last) (hm : st.mode = u.mode)
    (hr : c = '/' → regexAllowed st.before = regexAllowed u.before)
    (hc : ∀ s, regexAllowed (s ++ c :: st.before) = regexAllowed (s ++ c :: u.before)) :
    StepAlike (st.step c r) (u.step c r) := by
  unfold step
  rw [hm]
  cases u.mode with
  | plain => exact plainStep_alike r hb hl hr hc
  | slash regex =>
    by_cases h1 : c = '/'
    · simp only [if_pos h1]
      exact .more ⟨hb, hl, rfl, hc⟩
    by_cases h2 : c = '*'
    · simp only [if_neg h1, if_pos h2]
      exact .more ⟨hb, hl, rfl, hc⟩
    simp only [if_neg h1, if_neg h2]
    cases regex with
    | true => exact regexStep_alike false false hb hl hc
    | false => exact plainStep_alike r hb rfl hr hc
  | lineComment =>
    by_cases h : c = '\n'
    · simp only [if_pos h]
      exact plainStep_alike r hb hl hr hc
    · simp only [if_neg h]
      exact .more ⟨hb, hl, rfl, hc⟩
  | blockComment star =>
    simp only
    split
    · exact .more ⟨hb, hl, rfl, hc⟩
    · exact .more ⟨hb, hl, rfl, hc⟩
  | literal opening l =>
    simp only
    cases l.step c with
    | inside l => exact .more ⟨hb, hl, rfl, hc⟩
    | closed => exact .more ⟨hb, rfl, rfl, hc⟩
    | broken => exact .error _ _
  | regex inClass esc => exact regexStep_alike inClass esc hb hl hc
  | flags =>
    simp only
    split
    · exact .more ⟨hb, hl, rfl, hc⟩
    · exact plainStep_alike r hb hl hr hc

theorem Alike.step (h : st.Alike u) (c : Char) (r : List Char) :
    StepAlike (st.step c r) (u.step c r) := by
  apply step_alike r h.brackets h.complete h.mode (fun _ => h.regex [])
  intro s
  have hs := h.regex (s ++ [c])
  simpa only [List.append_assoc, List.singleton_append] using hs

end

theorem closes_of_stepAlike {st u : Scan} {c : Char} {s : List Char}
    (ih : ∀ {st u : Scan}, st.Alike u → st.closes s = u.closes s)
    (h : StepAlike (st.step c s) (u.step c s)) : st.closes (c :: s) = u.closes (c :: s) := by
  unfold closes
  generalize st.step c s = a at h ⊢
  generalize u.step c s = b at h ⊢
  cases h with
  | more h => exact ih h
  | endsBefore => rfl
  | endsWith => rfl
  | error e f => rfl

/-- Statements alike are closed by the same texts. -/
theorem closes_congr {st u : Scan} (h : st.Alike u) (s : List Char) :
    st.closes s = u.closes s := by
  induction s generalizing st u with
  | nil => rfl
  | cons c s ih => exact closes_of_stepAlike (fun h => ih h) (h.step c s)

end Scan

end StyleExports.EsModule
