import StyleExports.Proofs.EsModule.Reads

namespace StyleExports.EsModule

open Text

/-- All strings around stand between quotation marks. -/
def Literal.Sound (l : Literal) : Prop :=
  ∀ q, Frame.quoted q ∈ l.top :: l.outer → q = '"' ∨ q = '\''

theorem Literal.sound_open {c : Char} {l : Literal} (h : Literal.open? c = some l) : l.Sound := by
  unfold Literal.open? at h
  split at h
  · cases h
    intro q hq
    simp only [List.mem_singleton, Frame.quoted.injEq] at hq
    exact hq ▸ ‹_›
  · split at h
    · cases h
      intro q hq
      simp at hq
    · simp at h

theorem Literal.sound_leave {l k : Literal} (hl : l.Sound) (h : l.leave = .inside k) :
    k.Sound := by
  unfold leave at h
  split at h
  · simp at h
  · rename_i f fs ho
    cases h
    intro q hq
    exact hl q (List.mem_cons_of_mem _ (ho ▸ hq))

theorem Literal.sound_enter {l : Literal} {f : Frame} (hl : l.Sound)
    (hf : ∀ q, f = .quoted q → q = '"' ∨ q = '\'') : Literal.Sound ⟨f, l.top :: l.outer, .none⟩ := by
  intro q hq
  rcases List.mem_cons.mp hq with hq | hq
  · exact hf q hq.symm
  · exact hl q hq

theorem Literal.sound_substitutionStep {l k : Literal} {c : Char} {m : Nat} (hl : l.Sound)
    (h : l.substitutionStep m c = .inside k) : k.Sound := by
  have counted (n : Nat) : Literal.Sound { l with top := .substitution n } := by
    intro q hq
    rcases List.mem_cons.mp hq with hq | hq
    · simp at hq
    · exact hl q (List.mem_cons_of_mem _ hq)
  unfold substitutionStep at h
  split at h
  · rename_i hq
    cases h
    apply sound_enter hl
    intro q he
    cases he
    exact hq
  split at h
  · cases h
    exact sound_enter hl (by simp)
  split at h
  · cases h
    exact counted _
  split at h
  · split at h
    · exact sound_leave hl h
    · cases h
      exact counted _
  · cases h
    exact hl

theorem Literal.sound_step {l k : Literal} {c : Char} (hl : l.Sound)
    (h : l.step c = .inside k) : k.Sound := by
  have stay (pending : Pending) : Literal.Sound { l with pending := pending } := hl
  unfold step at h
  split at h
  · cases h
    exact stay _
  split at h
  · repeat' split at h
    · cases h
      exact stay _
    · simp at h
    · exact sound_leave hl h
    · cases h
      exact hl
  · repeat' split at h
    · cases h
      exact stay _
    · exact sound_leave hl h
    · cases h
      exact stay _
    · cases h
      exact sound_enter hl (by simp)
    · cases h
      exact stay _
  · exact sound_substitutionStep hl h

theorem Literal.closed_by {l : Literal} {c : Char} (hl : l.Sound) (h : l.step c = .closed) :
    c = '"' ∨ c = '\'' ∨ c = '`' ∨ c = '}' := by
  unfold step at h
  split at h
  · simp [stay] at h
  split at h
  · rename_i q hq
    repeat' split at h
    all_goals try simp [stay] at h
    rename_i hc
    have hs := hl q (hq ▸ List.mem_cons_self)
    rw [← hc] at hs
    rcases hs with hs | hs
    · exact .inl hs
    · exact .inr (.inl hs)
  · repeat' split at h
    all_goals simp_all [stay, enter]
  · unfold substitutionStep at h
    repeat' split at h
    all_goals simp_all [enter]

namespace Scan

def Sound (st : Scan) : Prop := ∀ c l, st.mode = .literal c l → l.Sound

theorem sound_of_mode {st : Scan} (h : ∀ c l, st.mode ≠ .literal c l) : st.Sound :=
  fun c l hm => absurd hm (h c l)

theorem sound_start : start.Sound := sound_of_mode (by intro c l h; cases h)

theorem plainStep_sound {st u : Scan} {c : Char} {r : List Char}
    (h : st.plainStep c r = .ok (.more u)) : u.Sound := by
  unfold plainStep at h
  split at h
  · rename_i l hl
    cases h
    intro d k hk
    cases hk
    exact Literal.sound_open hl
  · repeat' split at h
    all_goals
      simp only [Except.ok.injEq, Step.more.injEq, reduceCtorEq] at h
      try (subst h; exact sound_of_mode (by intro _ _ hm; cases hm))

theorem regexStep_mode {st u : Scan} {inClass esc : Bool} {c : Char}
    (h : st.regexStep inClass esc c = .ok (.more u)) :
    (∃ a b, u.mode = .regex a b) ∨ u.mode = .flags := by
  simp only [regexStep] at h
  repeat' split at h
  all_goals
    simp only [Except.ok.injEq, Step.more.injEq, reduceCtorEq] at h
    try (subst h; simp)

theorem step_sound {st u : Scan} {c : Char} {r : List Char} (hst : st.Sound)
    (h : st.step c r = .ok (.more u)) : u.Sound := by
  have regex {inClass esc : Bool} (h : st.regexStep inClass esc c = .ok (.more u)) : u.Sound := by
    rcases regexStep_mode h with ⟨a, b, hm⟩ | hm
    · exact sound_of_mode (by simp [hm])
    · exact sound_of_mode (by simp [hm])
  unfold step at h
  split at h
  case h_1 => exact plainStep_sound h
  case h_2 =>
    repeat' split at h
    · cases h
      exact sound_of_mode (by simp)
    · cases h
      exact sound_of_mode (by simp)
    · exact regex h
    · exact plainStep_sound h
  case h_3 =>
    split at h
    · exact plainStep_sound h
    · cases h
      exact sound_of_mode (by simp)
  case h_4 =>
    split at h
    · cases h
      exact sound_of_mode (by intro _ _ hm; cases hm)
    · cases h
      exact sound_of_mode (by simp)
  case h_5 d l hm =>
    split at h
    · rename_i k hk
      cases h
      intro e j hj
      cases hj
      exact Literal.sound_step (hst d l hm) hk
    · cases h
      exact sound_of_mode (by intro _ _ hm; cases hm)
    · simp at h
  case h_6 => exact regex h
  case h_7 =>
    split at h
    · cases h
      exact sound_of_mode (by simp)
    · exact plainStep_sound h

theorem Reads.sound {st u : Scan} {s t : List Char} (h : Reads st s t u) (hst : st.Sound) :
    u.Sound := by
  induction h with
  | nil => exact hst
  | cons h _ ih => exact ih (step_sound hst h)

/-- The modes in which a semicolon outside brackets closes a statement. -/
def IsOpenMode (m : Mode) : Prop := m = .plain ∨ m = .slash false ∨ m = .flags

/-- A character that ends no literal and belongs to no flags brings the automaton to where a
semicolon closes a statement only from such a place. -/
theorem openMode_of_step {st u : Scan} {c : Char} {r : List Char} (hst : st.Sound)
    (h : st.step c r = .ok (.more u)) (hu : IsOpenMode u.mode)
    (hc : c ∉ ['"', '\'', '`', '}', '/']) (hl : c = '\n' → st.mode ≠ .lineComment) :
    IsOpenMode st.mode := by
  simp only [List.mem_cons, List.not_mem_nil, or_false, not_or] at hc
  obtain ⟨h1, h2, h3, h4, h5⟩ := hc
  unfold step at h
  split at h
  case h_1 hm => exact .inl hm
  case h_2 regex hm =>
    cases regex with
    | false => exact .inr (.inl hm)
    | true =>
      rw [if_neg h5] at h
      split at h
      · cases h
        simp [IsOpenMode] at hu
      · rw [if_pos rfl] at h
        simp only [regexStep, Bool.false_eq_true, if_false, h5, false_and] at h
        repeat' split at h
        all_goals
          cases h
          try simp [IsOpenMode] at hu
  case h_3 hm =>
    rw [if_neg fun hn => hl hn hm] at h
    cases h
    simp [IsOpenMode] at hu
  case h_4 =>
    simp only [h5, and_false, if_false] at h
    cases h
    simp [IsOpenMode] at hu
  case h_5 d l hm =>
    split at h
    · cases h
      simp [IsOpenMode] at hu
    · rename_i hl
      have hq := Literal.closed_by (hst d l hm) hl
      simp [h1, h2, h3, h4] at hq
    · simp at h
  case h_6 =>
    simp only [regexStep, h5, false_and, if_false] at h
    repeat' split at h
    all_goals
      cases h
      try simp [IsOpenMode] at hu
  case h_7 hm => exact .inr (.inr hm)

theorem plainStep_brackets {st u : Scan} {c : Char} {r : List Char}
    (h : st.plainStep c r = .ok (.more u)) (hc : c ∉ ['(', '[', '{', ')', ']', '}']) :
    u.brackets = st.brackets := by
  simp only [List.mem_cons, List.not_mem_nil, or_false, not_or] at hc
  simp only [plainStep, hc, or_self, if_false] at h
  repeat' split at h
  all_goals
    simp only [Except.ok.injEq, Step.more.injEq, reduceCtorEq] at h
    try (subst h; rfl)

theorem step_brackets {st u : Scan} {c : Char} {r : List Char} (h : st.step c r = .ok (.more u))
    (hc : c ∉ ['(', '[', '{', ')', ']', '}']) : u.brackets = st.brackets := by
  have regex {inClass esc : Bool} (h : st.regexStep inClass esc c = .ok (.more u)) :
      u.brackets = st.brackets := by
    simp only [regexStep] at h
    repeat' split at h
    all_goals
      simp only [Except.ok.injEq, Step.more.injEq, reduceCtorEq] at h
      try (subst h; rfl)
  unfold step at h
  repeat' split at h
  all_goals first
    | (have hb := plainStep_brackets h hc; exact hb)
    | exact regex h
    | (simp only [Except.ok.injEq, Step.more.injEq] at h; subst h; rfl)
    | simp at h

/-- No semicolon stands right before the one that closes a statement. -/
theorem not_closes_twice {st : Scan} (hst : st.Sound) (s : List Char) :
    st.closes (s ++ [';', ';']) = false := by
  rw [Bool.eq_false_iff]
  intro h
  obtain ⟨u, hu, hc⟩ := exists_reads h (by simp)
  unfold closes at hc
  split at hc
  · rename_i v hv
    obtain ⟨hb, hm⟩ := closes_semicolon_iff.mp hc
    -- Where the second semicolon closes the statement, the first has closed it already.
    have ho := openMode_of_step (hu.sound hst) hv hm (by decide) (by simp)
    have he := (step_brackets hv (by decide)).symm.trans hb
    rw [step_semicolon he ho] at hv
    simp at hv
  · simp at hc
  · simp at hc

theorem startsStatement_append_of_none {s t : List Char} (ht : ∀ c ∈ t, isIdentChar c = false) :
    startsStatement (s ++ t) = startsStatement s := by
  -- A keyword consists of identifier characters, so it cannot reach into `y`.
  have apart (x y : List Char) (hy : ∀ c ∈ y, isIdentChar c = false) (k : List Char)
      (hk : k ∈ statementKeywords) :
      (afterKeyword? k (x ++ y)).isSome = (afterKeyword? k x).isSome :=
    afterKeyword?_isSome_of_head (isIdentChar_of_mem_keyword hk) fun c hc =>
      hy c (List.mem_of_head? hc)
  unfold startsStatement
  rw [Bool.eq_iff_iff, List.any_eq_true, List.any_eq_true, List.dropWhile_append]
  split
  · rename_i he
    rw [List.isEmpty_iff.mp he]
    have drop : ∀ c ∈ t.dropWhile isSpace, isIdentChar c = false := fun c hc =>
      ht c ((List.dropWhile_suffix isSpace).mem hc)
    have hk (k : List Char) (hk : k ∈ statementKeywords) :
        (afterKeyword? k (t.dropWhile isSpace)).isSome = (afterKeyword? k []).isSome :=
      apart [] _ drop k hk
    exact exists_congr fun k => and_congr_right fun hm => by rw [hk k hm]
  · exact exists_congr fun k => and_congr_right fun hm => by rw [apart _ t ht k hm]

def isQuiet : Mode → Bool
  | .plain => true
  | .slash _ => true
  | .literal _ _ => true
  | _ => false

theorem closes_blanks {st : Scan} {e : List Char} (hst : st.Sound) (he : ∀ c ∈ e, isBlank c = true)
    (h : st.closes (e ++ [';']) = true) (hq : st.staysIn isQuiet (e ++ [';']) = true) :
    st.closes [';'] = true := by
  induction e generalizing st with
  | nil => exact h
  | cons c e ih =>
    have hc := he c List.mem_cons_self
    have ne (d : Char) (hd : isBlank d = false) : c ≠ d := ne_of_class hc hd
    rw [List.cons_append, closes] at h
    rw [List.cons_append, staysIn, Bool.and_eq_true] at hq
    cases hs : st.step c (e ++ [';']) with
    | error f => simp [hs] at h
    | ok r =>
      cases r with
      | endsBefore => simp [hs] at h
      | endsWith => exact absurd (step_eq_endsWith hs).1 (ne ';' (by decide))
      | more u =>
        simp only [hs] at h hq
        obtain ⟨hb, hm⟩ := closes_semicolon_iff.mp
          (ih (step_sound hst hs) (fun d hd => he d (List.mem_cons_of_mem _ hd)) h hq.2)
        have hl : st.mode ≠ .lineComment := by
          intro hl
          simp [hl, isQuiet] at hq
        rw [closes_semicolon_iff]
        refine ⟨(step_brackets hs ?_).symm.trans hb, openMode_of_step hst hs hm ?_ fun _ => hl⟩
        · simp [ne '(' (by decide), ne '[' (by decide), ne '{' (by decide), ne ')' (by decide),
            ne ']' (by decide), ne '}' (by decide)]
        · simp [ne '"' (by decide), ne '\'' (by decide), ne '`' (by decide), ne '}' (by decide),
            ne '/' (by decide)]

/-- Blanks before the semicolon that closes a statement may go. -/
theorem closes_without_blanks {st : Scan} {s e : List Char} (hst : st.Sound)
    (he : ∀ c ∈ e, isBlank c = true) (h : st.closes (s ++ (e ++ [';'])) = true)
    (hq : st.staysIn isQuiet (s ++ (e ++ [';'])) = true) : st.closes (s ++ [';']) = true := by
  have none : ∀ c ∈ e ++ [';'], isIdentChar c = false := by
    intro c hc
    rcases List.mem_append.mp hc with hc | hc
    · exact isIdentChar_of_isBlank (he c hc)
    · rw [List.mem_singleton.mp hc]
      decide
  induction s generalizing st with
  | nil => exact closes_blanks hst he h hq
  | cons c s ih =>
    have hstep : st.step c (s ++ (e ++ [';'])) = st.step c (s ++ [';']) :=
      st.step_congr c ((startsStatement_append_of_none none).trans
        (startsStatement_append_of_none (forall_mem_of_all (by decide))).symm)
    rw [List.cons_append, closes] at h ⊢
    rw [List.cons_append, staysIn, Bool.and_eq_true] at hq
    rw [← hstep]
    cases hs : st.step c (s ++ (e ++ [';'])) with
    | error f => simp [hs] at h
    | ok r =>
      cases r with
      | endsBefore => simp [hs] at h
      | endsWith => simp [hs] at h
      | more u =>
        simp only [hs] at h hq
        exact ih (step_sound hst hs) h hq.2

end Scan

end StyleExports.EsModule
