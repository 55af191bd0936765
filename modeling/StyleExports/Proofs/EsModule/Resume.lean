import StyleExports.Proofs.EsModule.Reads

namespace StyleExports.EsModule.Scan

open Text

section

variable {st u : Scan} {c : Char} {h s t a b v w : List Char}

theorem statement_nil :
    st.statement [] = .ok (a, b) ↔ st.finish = .ok () ∧ a = [] ∧ b = [] := by
  rw [statement]
  cases st.finish with
  | error e => simp [bind, Except.bind]
  | ok x => simp [bind, Except.bind, pure, Except.pure, eq_comm]

/-- A character goes on with a statement, or the statement ends before it or with it. -/
theorem statement_cons : st.statement (c :: s) = .ok (a, b) ↔
    (∃ u d, st.step c s = .ok (.more u) ∧ u.statement s = .ok (d, b) ∧ a = c :: d) ∨
    (st.step c s = .ok .endsBefore ∧ a = [] ∧ b = c :: s) ∨
    (st.step c s = .ok .endsWith ∧ a = [c] ∧ b = s) := by
  rw [statement]
  cases st.step c s with
  | error e => simp [bind, Except.bind]
  | ok x =>
    cases x with
    | more u =>
      cases hu : u.statement s with
      | error e => simp [bind, Except.bind, hu]
      | ok p => simp [bind, Except.bind, pure, Except.pure, hu, Prod.ext_iff, eq_comm, and_comm]
    | endsBefore => simp [bind, Except.bind, pure, Except.pure, eq_comm]
    | endsWith => simp [bind, Except.bind, pure, Except.pure, eq_comm]

theorem finish_congr (h : st.Alike u) (hf : st.finish = .ok ()) : u.finish = .ok () := by
  unfold finish at hf ⊢
  rw [← h.mode, ← h.brackets]
  split at hf
  case h_5 =>
    split at hf
    · rfl
    · simp at hf
  all_goals simp at hf

theorem statement_of_stepAlike
    (ih : ∀ {st u : Scan} {a : List Char}, st.Alike u → st.statement s = .ok (a, b) →
      u.statement s = .ok (a, b))
    (h : StepAlike (st.step c s) (u.step c s)) (hs : st.statement (c :: s) = .ok (a, b)) :
    u.statement (c :: s) = .ok (a, b) := by
  rw [statement_cons] at hs ⊢
  rcases hs with ⟨st', d, hm, hs, hd⟩ | ⟨he, hab⟩ | ⟨he, hab⟩
  · rw [hm] at h
    generalize u.step c s = x at h ⊢
    cases h with
    | more h => exact .inl ⟨_, d, rfl, ih h hs, hd⟩
  · rw [he] at h
    generalize u.step c s = x at h ⊢
    cases h
    exact .inr (.inl ⟨rfl, hab⟩)
  · rw [he] at h
    generalize u.step c s = x at h ⊢
    cases h
    exact .inr (.inr ⟨rfl, hab⟩)

theorem statement_congr (h : st.Alike u) (hs : st.statement s = .ok (a, b)) :
    u.statement s = .ok (a, b) := by
  induction s generalizing st u a with
  | nil =>
    rw [statement_nil] at hs ⊢
    exact ⟨finish_congr h hs.1, hs.2⟩
  | cons c s ih => exact statement_of_stepAlike ih (h.step c s) hs

/-- A statement of which the beginning has been read. -/
theorem Reads.statement (hr : Reads st h t u) (ht : u.statement t = .ok (a, b)) :
    st.statement (h ++ t) = .ok (h ++ a, b) := by
  induction hr with
  | nil => exact ht
  | cons hs _ ih => exact statement_cons.mpr (.inl ⟨_, _, hs, ih ht, rfl⟩)

theorem exists_reads_statement (hs : st.statement (h ++ t) = .ok (h ++ a, b)) (ha : a ≠ []) :
    ∃ u, Reads st h t u ∧ u.statement t = .ok (a, b) := by
  induction h generalizing st with
  | nil => exact ⟨st, .nil, hs⟩
  | cons c h ih =>
    rcases statement_cons.mp hs with ⟨v, d, hm, hs, hd⟩ | ⟨-, hd, -⟩ | ⟨-, hd, -⟩
    · obtain rfl := (List.cons.inj hd).2
      obtain ⟨u, hu, ht⟩ := ih hs
      exact ⟨u, .cons hm hu, ht⟩
    · simp at hd
    · exact absurd (List.append_eq_nil_iff.mp (List.cons.inj hd).2).2 ha

theorem plainStep_eq_endsBefore (hs : st.plainStep c s = .ok .endsBefore) : c = '\n' := by
  unfold plainStep at hs
  repeat' split at hs
  all_goals simp_all

theorem step_eq_endsBefore (hs : st.step c s = .ok .endsBefore) : c = '\n' := by
  unfold step at hs
  repeat' split at hs
  all_goals first
    | exact plainStep_eq_endsBefore hs
    | (simp only [regexStep] at hs; repeat' split at hs) <;> simp_all
    | simp at hs

/-- A statement ends where it ends before every text that begins with the same character, if the same
keywords begin before both. -/
theorem statement_before (hc : c ≠ '\n')
    (same : ∀ x, startsStatement (x ++ c :: v) = startsStatement (x ++ c :: w))
    (hs : st.statement (a ++ (b ++ c :: v)) = .ok (a, b ++ c :: v)) :
    st.statement (a ++ (b ++ c :: w)) = .ok (a, b ++ c :: w) := by
  induction a generalizing st with
  | nil =>
    cases b with
    | nil =>
      rcases statement_cons.mp hs with ⟨_, _, -, -, hd⟩ | ⟨he, -⟩ | ⟨-, hd, -⟩
      · simp at hd
      · exact absurd (step_eq_endsBefore he) hc
      · simp at hd
    | cons d b =>
      rcases statement_cons.mp hs with ⟨_, _, -, -, hd⟩ | ⟨he, -⟩ | ⟨-, hd, -⟩
      · simp at hd
      · replace he : st.step d (b ++ c :: v) = .ok .endsBefore := he
        rw [st.step_congr d (same b)] at he
        exact statement_cons.mpr (.inr (.inl ⟨he, rfl, rfl⟩))
      · simp at hd
  | cons d a ih =>
    have step : st.step d (a ++ (b ++ c :: v)) = st.step d (a ++ (b ++ c :: w)) := by
      rw [← List.append_assoc, ← List.append_assoc]
      exact st.step_congr d (same (a ++ b))
    rcases statement_cons.mp hs with ⟨u, e, hm, hs, hd⟩ | ⟨-, hd, -⟩ | ⟨he, hd, -⟩
    · obtain rfl := (List.cons.inj hd).2
      exact statement_cons.mpr (.inl ⟨u, a, step ▸ hm, ih hs, rfl⟩)
    · simp at hd
    · obtain rfl : a = [] := by simpa using hd
      exact statement_cons.mpr (.inr (.inr ⟨step ▸ he, rfl, rfl⟩))

end

end StyleExports.EsModule.Scan
