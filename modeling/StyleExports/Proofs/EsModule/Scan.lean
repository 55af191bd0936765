import StyleExports.EsModule.Scan
import StyleExports.Proofs.Text.Trim

namespace StyleExports.EsModule

open Text

theorem afterKeyword?_eq_some {k s r : List Char} :
    afterKeyword? k s = some r ↔ s = k ++ r ∧ ∀ c ∈ r.head?, isIdentChar c = false := by
  unfold afterKeyword?
  cases hp : k.isPrefixOf? s with
  | none =>
    refine ⟨by simp, ?_⟩
    rintro ⟨rfl, -⟩
    have he := List.isPrefixOf?_eq_some_iff_append_eq.mpr (rfl : k ++ r = k ++ r)
    simp [he] at hp
  | some u =>
    have hs := List.isPrefixOf?_eq_some_iff_append_eq.mp hp
    subst hs
    rw [List.append_cancel_left_eq]
    cases u with
    | nil =>
      constructor
      · rintro h
        cases h
        simp
      · rintro ⟨rfl, -⟩
        rfl
    | cons c u =>
      constructor
      · intro h
        by_cases hc : isIdentChar c
        · simp [hc] at h
        · simp only [hc] at h
          cases h
          simpa using hc
      · rintro ⟨rfl, h⟩
        have hc : isIdentChar c = false := h c rfl
        simp [hc]

theorem afterKeyword?_append {k r : List Char} (h : ∀ c ∈ r.head?, isIdentChar c = false) :
    afterKeyword? k (k ++ r) = some r :=
  afterKeyword?_eq_some.mpr ⟨rfl, h⟩

/-- A character that is not of the keyword keeps the keyword apart from what follows. -/
theorem afterKeyword?_isSome_append {k s t : List Char} {d : Char} (hs : d ∈ s) (hk : d ∉ k) :
    (afterKeyword? k (s ++ t)).isSome = (afterKeyword? k s).isSome := by
  rw [Bool.eq_iff_iff, Option.isSome_iff_exists, Option.isSome_iff_exists]
  constructor
  · rintro ⟨r, hr⟩
    obtain ⟨he, hh⟩ := afterKeyword?_eq_some.mp hr
    rcases List.append_eq_append_iff.mp he with ⟨a, rfl, rfl⟩ | ⟨a, rfl, rfl⟩
    · exact absurd (List.mem_append_left a hs) hk
    · have ha : d ∈ a := (List.mem_append.mp hs).resolve_left hk
      refine ⟨a, afterKeyword?_eq_some.mpr ⟨rfl, ?_⟩⟩
      intro c hc
      exact hh c (by rw [List.head?_append_of_ne_nil _ (List.ne_nil_of_mem ha)]; exact hc)
  · rintro ⟨r, hr⟩
    obtain ⟨rfl, hh⟩ := afterKeyword?_eq_some.mp hr
    have hm : d ∈ r := (List.mem_append.mp hs).resolve_left hk
    refine ⟨r ++ t, afterKeyword?_eq_some.mpr ⟨List.append_assoc .., ?_⟩⟩
    intro c hc
    exact hh c (by rwa [List.head?_append_of_ne_nil _ (List.ne_nil_of_mem hm)] at hc)

theorem afterKeyword?_isSome_of_head {k s t : List Char} (hk : ∀ c ∈ k, isIdentChar c = true)
    (ht : ∀ c ∈ t.head?, isIdentChar c = false) :
    (afterKeyword? k (s ++ t)).isSome = (afterKeyword? k s).isSome := by
  rw [Bool.eq_iff_iff, Option.isSome_iff_exists, Option.isSome_iff_exists]
  constructor
  · rintro ⟨r, hr⟩
    obtain ⟨he, hh⟩ := afterKeyword?_eq_some.mp hr
    rcases List.append_eq_append_iff.mp he with ⟨a, hka, rfl⟩ | ⟨a, rfl, rfl⟩
    · cases a with
      | nil =>
        rw [List.append_nil] at hka
        exact ⟨[], afterKeyword?_eq_some.mpr ⟨by rw [hka, List.append_nil], by simp⟩⟩
      | cons d a =>
        have h1 := hk d (by rw [hka]; simp)
        have h2 := ht d rfl
        simp [h1] at h2
    · refine ⟨a, afterKeyword?_eq_some.mpr ⟨rfl, fun c hc => ?_⟩⟩
      exact hh c (by cases a with | nil => simp at hc | cons d a => exact hc)
  · rintro ⟨r, hr⟩
    obtain ⟨rfl, hh⟩ := afterKeyword?_eq_some.mp hr
    refine ⟨r ++ t, afterKeyword?_eq_some.mpr ⟨List.append_assoc .., fun c hc => ?_⟩⟩
    cases r with
    | nil => exact ht c hc
    | cons d r => exact hh c hc

theorem not_mem_statementKeywords {k : List Char} (hk : k ∈ statementKeywords) : ';' ∉ k := by
  revert k
  decide

theorem isIdentChar_of_mem_keyword {k : List Char} (hk : k ∈ statementKeywords) :
    ∀ c ∈ k, isIdentChar c = true := by
  have letters : ∀ k ∈ statementKeywords, k.all isIdentChar = true := by decide
  exact List.all_eq_true.mp (letters k hk)

theorem dropWhile_isSpace_append {s : List Char} {d : Char} (hs : d ∈ s) (hd : isSpace d = false)
    (t : List Char) :
    (s ++ t).dropWhile isSpace = s.dropWhile isSpace ++ t ∧ d ∈ s.dropWhile isSpace := by
  obtain ⟨b, hb, he⟩ := exists_dropWhile isSpace s
  have hm : d ∈ s.dropWhile isSpace := by
    rw [he, List.mem_append] at hs
    exact hs.resolve_left fun h => absurd (hb _ h) (by simp [hd])
  refine ⟨?_, hm⟩
  rw [List.dropWhile_append, if_neg]
  simpa using List.ne_nil_of_mem hm

/-- Whether a text begins with the keyword of a statement is decided before its first
semicolon. -/
theorem startsStatement_append {s : List Char} (hs : ';' ∈ s) (t : List Char) :
    startsStatement (s ++ t) = startsStatement s := by
  obtain ⟨he, hm⟩ := dropWhile_isSpace_append hs (by decide) t
  unfold startsStatement
  rw [he, Bool.eq_iff_iff, List.any_eq_true, List.any_eq_true]
  have hk (k : List Char) (hk : k ∈ statementKeywords) :=
    afterKeyword?_isSome_append (t := t) hm (not_mem_statementKeywords hk)
  constructor
  · rintro ⟨k, hin, h⟩
    exact ⟨k, hin, (hk k hin).symm.trans h⟩
  · rintro ⟨k, hin, h⟩
    exact ⟨k, hin, (hk k hin).trans h⟩

/-- Whether a keyword begins a statement before another text depends only on that keyword. -/
theorem startsStatement_export {v r : List Char} (hv : afterKeyword? "export".toList v = some r)
    (s : List Char) : startsStatement (s ++ v) = startsStatement (s ++ "export".toList) := by
  obtain ⟨rfl, hr⟩ := afterKeyword?_eq_some.mp hv
  have drop := (dropWhile_isSpace_append (d := 'e') (s := s ++ "export".toList) (by simp)
    (by decide) r).1
  unfold startsStatement
  rw [← List.append_assoc, drop, Bool.eq_iff_iff, List.any_eq_true, List.any_eq_true]
  refine exists_congr fun k => and_congr_right fun hk => ?_
  rw [afterKeyword?_isSome_of_head (isIdentChar_of_mem_keyword hk) hr]

namespace Scan

/-- Whether the automaton ends a statement with the last character of a text, and not before: a
semicolon terminates it. -/
def closes (st : Scan) : List Char → Bool
  | [] => false
  | c :: s =>
    match st.step c s with
    | .ok (.more st) => st.closes s
    | .ok .endsWith => s.isEmpty
    | _ => false

/-- Whether the automaton is in modes with property `p` only while it reads a text. -/
def staysIn (p : Mode → Bool) (st : Scan) : List Char → Bool
  | [] => p st.mode
  | c :: s =>
    p st.mode &&
      match st.step c s with
      | .ok (.more st) => st.staysIn p s
      | _ => true

theorem step_congr (st : Scan) (c : Char) {r t : List Char}
    (h : startsStatement r = startsStatement t) : st.step c r = st.step c t := by
  unfold step plainStep
  rw [h]

theorem plainStep_eq_endsWith {st : Scan} {c : Char} {r : List Char}
    (h : st.plainStep c r = .ok .endsWith) : c = ';' ∧ st.brackets = [] := by
  unfold plainStep at h
  repeat' split at h
  all_goals simp_all

/-- Only a semicolon outside brackets ends a statement, and outside everything else. -/
theorem step_eq_endsWith {st : Scan} {c : Char} {r : List Char} (h : st.step c r = .ok .endsWith) :
    c = ';' ∧ st.brackets = [] ∧
      (st.mode = .plain ∨ st.mode = .slash false ∨ st.mode = .flags) := by
  unfold step at h
  split at h
  case h_1 hm => exact ⟨(plainStep_eq_endsWith h).1, (plainStep_eq_endsWith h).2, .inl hm⟩
  case h_2 regex hm =>
    cases regex with
    | false =>
      split at h
      · simp at h
      · split at h
        · simp at h
        · have hp := plainStep_eq_endsWith (by simpa using h)
          exact ⟨hp.1, hp.2, .inr (.inl hm)⟩
    | true =>
      simp only [regexStep] at h
      repeat' split at h
      all_goals simp_all
  case h_3 hm =>
    split at h
    · have hp := plainStep_eq_endsWith h
      simp_all
    · simp at h
  case h_4 => split at h <;> simp at h
  case h_5 => split at h <;> simp at h
  case h_6 =>
    simp only [regexStep] at h
    repeat' split at h
    all_goals simp_all
  case h_7 hm =>
    split at h
    · simp at h
    · have hp := plainStep_eq_endsWith h
      exact ⟨hp.1, hp.2, .inr (.inr hm)⟩

theorem step_semicolon {st : Scan} (hb : st.brackets = [])
    (hm : st.mode = .plain ∨ st.mode = .slash false ∨ st.mode = .flags) (r : List Char) :
    st.step ';' r = .ok .endsWith := by
  rcases hm with hm | hm | hm <;> simp [step, hm, plainStep, hb, Literal.open?, isIdentChar]

theorem closes_semicolon_iff {st : Scan} : st.closes [';'] = true ↔
    st.brackets = [] ∧ (st.mode = .plain ∨ st.mode = .slash false ∨ st.mode = .flags) := by
  constructor
  · intro h
    unfold closes at h
    split at h
    · simp [closes] at h
    · rename_i hs
      exact (step_eq_endsWith hs).2
    · simp at h
  · rintro ⟨hb, hm⟩
    simp [closes, step_semicolon hb hm]

theorem exists_of_closes {st : Scan} {s : List Char} (h : st.closes s = true) :
    ∃ u, s = u ++ [';'] := by
  induction s generalizing st with
  | nil => simp [closes] at h
  | cons c s ih =>
    unfold closes at h
    split at h
    · obtain ⟨u, rfl⟩ := ih h
      exact ⟨c :: u, rfl⟩
    · rename_i hs
      have he : s = [] := by simpa using h
      exact ⟨[], by rw [he, (step_eq_endsWith hs).1]; rfl⟩
    · simp at h

theorem mem_of_closes {st : Scan} {s : List Char} (h : st.closes s = true) : ';' ∈ s := by
  obtain ⟨u, rfl⟩ := exists_of_closes h
  simp

/-- A statement that a semicolon ends is the same before every other text. -/
theorem statement_of_closes {st : Scan} {s : List Char} (h : st.closes s = true) (t : List Char) :
    st.statement (s ++ t) = .ok (s, t) := by
  induction s generalizing st with
  | nil => simp [closes] at h
  | cons c s ih =>
    unfold closes at h
    split at h
    · rename_i st' hs
      have hc := (st.step_congr c (startsStatement_append (mem_of_closes h) t)).trans hs
      simp only [List.cons_append, statement, hc, bind, Except.bind, ih h, pure, Except.pure]
    · rename_i hs
      have he : s = [] := by simpa using h
      obtain ⟨hc, hb, hm⟩ := step_eq_endsWith hs
      simp only [he, hc, List.cons_append, List.nil_append, statement, step_semicolon hb hm, bind,
        Except.bind, pure, Except.pure]
    · simp at h

end Scan

end StyleExports.EsModule
