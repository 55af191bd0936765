import StyleExports.Proofs.EsModule.Alike

namespace StyleExports.EsModule

open Text

namespace Scan

/-- The automaton gets from one state to another over a text that `t` follows. -/
inductive Reads : Scan → List Char → List Char → Scan → Prop where
  | nil {st : Scan} {t : List Char} : Reads st [] t st
  | cons {st u v : Scan} {c : Char} {s t : List Char}
      (h : st.step c (s ++ t) = .ok (.more u)) (hs : Reads u s t v) : Reads st (c :: s) t v

theorem plainStep_before {st u : Scan} {c : Char} {r : List Char}
    (h : st.plainStep c r = .ok (.more u)) : u.before = c :: st.before := by
  unfold plainStep at h
  repeat' split at h
  all_goals
    simp only [Except.ok.injEq, Step.more.injEq, reduceCtorEq] at h
    try subst h
    try rfl

theorem regexStep_before {st u : Scan} {inClass esc : Bool} {c : Char}
    (h : st.regexStep inClass esc c = .ok (.more u)) : u.before = c :: st.before := by
  simp only [regexStep] at h
  repeat' split at h
  all_goals
    simp only [Except.ok.injEq, Step.more.injEq, reduceCtorEq] at h
    try subst h
    try rfl

theorem step_before {st u : Scan} {c : Char} {r : List Char}
    (h : st.step c r = .ok (.more u)) : u.before = c :: st.before := by
  unfold step at h
  repeat' split at h
  all_goals first
    | (have hb := plainStep_before h; exact hb)
    | exact regexStep_before h
    | (simp only [Except.ok.injEq, Step.more.injEq] at h; subst h; rfl)
    | simp at h

namespace Reads

variable {st u v : Scan} {s t w : List Char}

theorem before (h : Reads st s t u) : u.before = s.reverse ++ st.before := by
  induction h with
  | nil => rfl
  | cons h _ ih => rw [ih, step_before h, List.reverse_cons, List.append_assoc]; rfl

theorem closes (h : Reads st s t u) : st.closes (s ++ t) = u.closes t := by
  induction h with
  | nil => rfl
  | cons h _ ih => rw [List.cons_append, Scan.closes, h]; exact ih

theorem staysIn {p : Mode → Bool} (h : Reads st s t u) (hp : st.staysIn p (s ++ t) = true) :
    u.staysIn p t = true := by
  induction h with
  | nil => exact hp
  | cons h _ ih =>
    rw [List.cons_append, Scan.staysIn, h, Bool.and_eq_true] at hp
    exact ih hp.2

theorem append (h : Reads st s (w ++ t) u) (hw : Reads u w t v) : Reads st (s ++ w) t v := by
  induction s generalizing st with
  | nil =>
    cases h
    exact hw
  | cons c s ih =>
    cases h with
    | cons hs hr => exact .cons ((List.append_assoc s w t).symm ▸ hs) (ih hr)

theorem split (h : Reads st (s ++ w) t v) : ∃ u, Reads st s (w ++ t) u ∧ Reads u w t v := by
  induction s generalizing st with
  | nil => exact ⟨st, .nil, h⟩
  | cons c s ih =>
    cases h with
    | cons hs hr =>
      obtain ⟨u, h1, h2⟩ := ih hr
      exact ⟨u, .cons (by rwa [← List.append_assoc]) h1, h2⟩

end Reads

/-- What closes a statement is read up to any place before its end. -/
theorem exists_reads {st : Scan} {s t : List Char} (h : st.closes (s ++ t) = true) (ht : t ≠ []) :
    ∃ u, Reads st s t u ∧ u.closes t = true := by
  induction s generalizing st with
  | nil => exact ⟨st, .nil, h⟩
  | cons c s ih =>
    rw [List.cons_append] at h
    unfold closes at h
    split at h
    · rename_i st' hs
      obtain ⟨u, hu, hc⟩ := ih h
      exact ⟨u, .cons hs hu, hc⟩
    · exact absurd (List.append_eq_nil_iff.mp (List.isEmpty_iff.mp h)).2 ht
    · simp at h

theorem Reads.congr {st u v : Scan} {s t : List Char} (h : Reads st s t v) (ha : st.Alike u) :
    ∃ w, Reads u s t w ∧ v.Alike w := by
  induction h generalizing u with
  | nil => exact ⟨u, .nil, ha⟩
  | @cons st x v c s t h _ ih =>
    have hstep := ha.step c (s ++ t)
    rw [h] at hstep
    generalize hy : u.step c (s ++ t) = y at hstep
    cases hstep with
    | more ha =>
      obtain ⟨w, hw, hv⟩ := ih ha
      exact ⟨w, .cons hy hw, hv⟩

/-- Statements are read alike if they are alike behind the first character. -/
theorem Reads.congr_cons {st u v : Scan} {c : Char} {s t : List Char} (h : Reads st (c :: s) t v)
    (ha : ∀ r, StepAlike (st.step c r) (u.step c r)) : ∃ w, Reads u (c :: s) t w ∧ v.Alike w := by
  cases h with
  | cons hs hr =>
    have hstep := ha (s ++ t)
    rw [hs] at hstep
    generalize hy : u.step c (s ++ t) = y at hstep
    cases hstep with
    | more ha =>
      obtain ⟨w, hw, hv⟩ := hr.congr ha
      exact ⟨w, .cons hy hw, hv⟩

/-- A character that stands for itself alone: no blank, no bracket, and nothing that opens or ends
anything. -/
def isIdle (c : Char) : Bool :=
  !isSpace c && c ∉ ['"', '\'', '`', '/', '(', ')', '[', ']', '{', '}', ';']

theorem step_idle {st : Scan} {c : Char} (hm : st.mode = .plain) (hc : isIdle c)
    (r : List Char) : st.step c r = .ok (.more (st.pushLast c)) := by
  simp only [isIdle, Bool.and_eq_true, Bool.not_eq_true', decide_eq_true_eq, List.mem_cons,
    List.not_mem_nil, or_false, not_or] at hc
  obtain ⟨hs, h1, h2, h3, h4, h5, h6, h7, h8, h9, h10, h11⟩ := hc
  have hn : c ≠ '\n' := by rintro rfl; simp [isSpace] at hs
  simp [step, hm, plainStep, Literal.open?, h1, h2, h3, h4, h5, h6, h7, h8, h9, h10, h11, hn, hs]

theorem step_space {st : Scan} {c : Char} (hm : st.mode = .plain) (hc : isSpace c)
    (hn : c = '\n' → st.brackets ≠ []) (r : List Char) : st.step c r = .ok (.more (st.push c)) := by
  simp only [isSpace, Bool.or_eq_true, beq_iff_eq] at hc
  rcases hc with (((rfl | rfl) | rfl) | rfl) | rfl
  case inl.inl.inr =>
    have hb : st.brackets ≠ [] := hn rfl
    simp [step, hm, plainStep, Literal.open?, isSpace, hb]
  all_goals simp [step, hm, plainStep, Literal.open?, isSpace]

theorem step_slash {st : Scan} (hm : st.mode = .plain) (r : List Char) :
    st.step '/' r = .ok (.more (st.begin '/' (.slash (regexAllowed st.before)))) := by
  simp [step, hm, plainStep, Literal.open?]

theorem isIdentChar_of_isBlank {c : Char} (h : isBlank c = true) : isIdentChar c = false := by
  simp only [isBlank, blankRanges, List.any_cons, List.any_nil, Bool.or_false, Bool.or_eq_true,
    Bool.and_eq_true, decide_eq_true_eq] at h
  have alphanum : c.isAlphanum = (decide (65 ≤ c.val ∧ c.val ≤ 90) ||
      decide (97 ≤ c.val) && decide (c.val ≤ 122) || decide (48 ≤ c.val) && decide (c.val ≤ 57)) :=
    rfl
  rw [Bool.eq_false_iff]
  intro hi
  simp only [isIdentChar, alphanum, Bool.or_eq_true, Bool.and_eq_true, decide_eq_true_eq, beq_iff_eq,
    UInt32.le_iff_toNat_le] at hi
  have hv : c.toNat = c.val.toNat := rfl
  rcases hi with (((⟨h1, h2⟩ | ⟨h1, h2⟩) | ⟨h1, h2⟩) | rfl) | rfl
  · have h1 : 65 ≤ c.toNat := h1
    have h2 : c.toNat ≤ 90 := h2
    omega
  · have h1 : 97 ≤ c.toNat := h1
    have h2 : c.toNat ≤ 122 := h2
    omega
  · have h1 : 48 ≤ c.toNat := h1
    have h2 : c.toNat ≤ 57 := h2
    omega
  · simp at h
  · simp at h

theorem isIdentChar_of_isSpace {c : Char} (h : isSpace c = true) : isIdentChar c = false :=
  isIdentChar_of_isBlank (isBlank_of_isSpace h)

theorem isSpace_of_isIdentChar {c : Char} (h : isIdentChar c = true) : isSpace c = false := by
  rw [Bool.eq_false_iff]
  intro hs
  simp [isIdentChar_of_isSpace hs] at h

theorem isIdle_of_class {p : Char → Bool} {c : Char} (hc : p c = true) (hs : isSpace c = false)
    (hp : ∀ d ∈ ['"', '\'', '`', '/', '(', ')', '[', ']', '{', '}', ';'], p d = false) :
    isIdle c = true := by
  have mark : c ∉ ['"', '\'', '`', '/', '(', ')', '[', ']', '{', '}', ';'] := fun hm =>
    ne_of_class hc (hp c hm) rfl
  exact Bool.and_eq_true_iff.mpr ⟨by simp [hs], decide_eq_true mark⟩

theorem isIdle_of_isIdentChar {c : Char} (h : isIdentChar c = true) : isIdle c = true :=
  isIdle_of_class h (isSpace_of_isIdentChar h) (forall_mem_of_all (by decide))

theorem isIdle_of_isBlank {c : Char} (h : isBlank c = true) (hs : isSpace c = false) :
    isIdle c = true :=
  isIdle_of_class h hs (forall_mem_of_all (by decide))

/-- After a blank, or after a character of an identifier, a line can be the end of a statement. -/
theorem isComplete_of_word {c : Char} (h : isIdentChar c = true ∨ isBlank c = true) :
    isComplete (some c) = true := by
  apply decide_eq_true
  intro hm
  have none : ∀ d ∈ ['=', ',', '(', '[', '{', ':', '?', '+', '-', '*', '/', '%', '&', '|', '^', '!',
      '~', '<', '>', '.'], isIdentChar d = false ∧ isBlank d = false :=
    forall_mem_of_all (by decide)
  have hc := none c hm
  simp [hc.1, hc.2] at h

theorem step_blank {st u : Scan} {c : Char} {r : List Char} (hm : st.mode = .plain)
    (hc : isBlank c = true) (h : st.step c r = .ok (.more u)) : u = st.push c ∨ u = st.pushLast c := by
  by_cases hs : isSpace c
  · refine .inl ?_
    by_cases hn : c = '\n' ∧ st.brackets = []
    · rw [step, hm] at h
      simp only [plainStep, hn.1, hn.2, Literal.open?, Char.reduceEq, or_self, if_false] at h
      split at h
      · simp at h
      split at h
      · simp at h
      split at h
      · rw [hn.1]
        cases h
        rfl
      · simp [isSpace] at *
    · have hb : c = '\n' → st.brackets ≠ [] := fun he hb => hn ⟨he, hb⟩
      rw [step_space hm hs hb] at h
      cases h
      rfl
  · rw [step_idle hm (isIdle_of_isBlank hc (by simpa using hs))] at h
    cases h
    exact .inr rfl

/-- Outside everything, with certain brackets open, where a line can be the end of a statement. -/
structure Ready (bs : List Char) (st : Scan) : Prop where
  mode : st.mode = .plain
  brackets : st.brackets = bs
  complete : isComplete st.last = true

/-- Words and blanks leave the automaton outside everything. -/
theorem Reads.ready {st u : Scan} {s t bs : List Char} (h : Reads st s t u) (hr : Ready bs st)
    (hs : ∀ c ∈ s, isIdentChar c = true ∨ isBlank c = true) : Ready bs u := by
  induction h with
  | nil => exact hr
  | @cons st u v c s t h _ ih =>
    refine ih ?_ fun d hd => hs d (List.mem_cons_of_mem _ hd)
    have hc := hs c List.mem_cons_self
    have last : u = st.push c ∨ u = st.pushLast c := by
      rcases hc with hi | hb
      · rw [step_idle hr.mode (isIdle_of_isIdentChar hi)] at h
        cases h
        exact .inr rfl
      · exact step_blank hr.mode hb h
    rcases last with rfl | rfl
    · exact ⟨rfl, hr.brackets, hr.complete⟩
    · exact ⟨rfl, hr.brackets, isComplete_of_word hc⟩

/-- How a statement goes on depends on what stands before only by whether a word goes on, and
whether a slash is a division. -/
theorem stepAlike_of_ready {st u : Scan} {bs : List Char} {c : Char} (hst : Ready bs st)
    (hu : Ready bs u) (hc : isSpace c = false)
    (hp : isIdentChar c → ∀ d ∈ st.before.head?, isIdentChar d = false)
    (hq : isIdentChar c → ∀ d ∈ u.before.head?, isIdentChar d = false)
    (hr : c = '/' → regexAllowed st.before = regexAllowed u.before) (r : List Char) :
    StepAlike (st.step c r) (u.step c r) :=
  step_alike r (hst.brackets.trans hu.brackets.symm) (hst.complete.trans hu.complete.symm)
    (hst.mode.trans hu.mode.symm) hr fun a => regexAllowed_append_cons a hc hp hq

theorem closes_cons_of_ready {st u : Scan} {bs s : List Char} {c : Char} (hst : Ready bs st)
    (hu : Ready bs u) (hc : isSpace c = false)
    (hp : isIdentChar c → ∀ d ∈ st.before.head?, isIdentChar d = false)
    (hq : isIdentChar c → ∀ d ∈ u.before.head?, isIdentChar d = false)
    (hr : c = '/' → regexAllowed st.before = regexAllowed u.before) :
    st.closes (c :: s) = u.closes (c :: s) :=
  closes_of_stepAlike (fun h => closes_congr h s) (stepAlike_of_ready hst hu hc hp hq hr s)

end Scan

end StyleExports.EsModule
