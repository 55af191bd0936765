import StyleExports.Proofs.EsModule.Gap

namespace StyleExports.EsModule

open Text

def commentGap : List Char := " /**/ ".toList

section

variable {r s t x : List Char}

theorem isGap_commentGap : IsGap false commentGap :=
  .space (by decide) (by decide) (.blockComment (a := ['*', '/']) (by decide) isGap_space)

/-- A keyword that begins in front of a text with which no word goes on begins there in front of every
other such text. -/
theorem startsStatement_exchange (hr : ∀ c ∈ (r.dropWhile isSpace).head?, isIdentChar c = false)
    (ht : ∀ c ∈ t.head?, isIdentChar c = false) (h : startsStatement (x ++ r) = true) :
    startsStatement (x ++ t) = true := by
  by_cases blank : ∀ c ∈ x, isSpace c = true
  · obtain ⟨c, u, hc, hident⟩ := exists_of_startsStatement h
    rw [List.dropWhile_append_of_pos blank] at hc
    rw [hr c (by rw [hc]; rfl)] at hident
    simp at hident
  · push Not at blank
    obtain ⟨d, hd, space⟩ := blank
    have space : isSpace d = false := by simpa using space
    have head : ∀ c ∈ r.head?, isIdentChar c = false := by
      intro c hc
      obtain ⟨u, rfl⟩ := List.head?_eq_some_iff.mp hc
      by_cases hs : isSpace c = true
      · exact Scan.isIdentChar_of_isSpace hs
      · exact hr c (by rw [List.dropWhile_cons_of_neg hs]; rfl)
    rw [startsStatement_append_of_head hd space ht]
    rwa [startsStatement_append_of_head hd space head] at h

namespace Scan

variable {st u v : Scan} {c : Char} {a b w : List Char}

theorem step_exchange (hr : startsStatement r = true → startsStatement t = true)
    (h : st.step c t = .ok (.more u)) : st.step c r = .ok (.more u) := by
  by_cases hc : c = '\n'
  case neg => rwa [step_of_ne hc r t]
  subst hc
  cases hk : startsStatement r with
  | true => rwa [st.step_congr '\n' (hk.trans (hr hk).symm)]
  | false =>
    have plain {v : Scan} (h : v.plainStep '\n' t = .ok (.more u)) :
        v.plainStep '\n' r = .ok (.more u) := by
      by_cases hb : v.brackets = []
      · rw [plainStep_newline hb] at h ⊢
        split at h
        · simp at h
        · rwa [if_neg (by simp [hk])]
      · simp only [plainStep, hb, and_false, false_and, if_false] at h ⊢
        exact h
    unfold step at h ⊢
    split at h
    case h_1 => exact plain h
    case h_2 =>
      repeat' split at h
      all_goals simp_all
    case h_3 => exact plain h
    case h_7 => exact plain h
    all_goals exact h

theorem Reads.exchange (hr : ∀ x, startsStatement (x ++ r) = true → startsStatement (x ++ t) = true)
    (h : Reads st s t u) : Reads st s r u := by
  induction h with
  | nil => exact .nil
  | cons hs _ ih => exact .cons (step_exchange (hr _) hs) (ih hr)

theorem step_space_eq (hm : st.mode = .plain) (hc : isSpace c = true) (r : List Char) :
    st.step c r = .ok (if c = '\n' ∧ st.brackets = [] ∧ isComplete st.last ∧ startsStatement r then
      .endsBefore else .more (st.push c)) := by
  by_cases hn : c = '\n' ∧ st.brackets = []
  · obtain ⟨rfl, hb⟩ := hn
    simp only [step, hm, plainStep_newline hb, hb, true_and]
  · rw [step_space hm hc (fun h hb => hn ⟨h, hb⟩), if_neg (fun h => hn ⟨h.1, h.2.1⟩)]

/-- Whether a division follows, after blanks: a slash behind a value that begins no comment. -/
def divides (st : Scan) (s : List Char) : Bool :=
  !regexAllowed st.before && (s.dropWhile isSpace).head? == some '/' &&
    (Chunk.comment? (s.dropWhile isSpace)).isNone

/-- A statement between two of its tokens, and as it is with a comment there. -/
structure Beside (st u : Scan) : Prop where
  modes : st.mode = .plain ∧ u.mode = .plain
  brackets : st.brackets = u.brackets
  complete : isComplete st.last = isComplete u.last
  words : ∀ c, c ∈ st.before.head? ∨ c ∈ u.before.head? → isIdentChar c = false
  /-- Behind a comment a slash is never taken for a division. -/
  regex : regexAllowed u.before = true

namespace Beside

theorem push (h : Beside st u) (hc : isSpace c = true) : Beside (st.push c) (u.push c) where
  modes := ⟨rfl, rfl⟩
  brackets := h.brackets
  complete := h.complete
  words := by
    rintro d (hd | hd)
    all_goals
      rw [← Option.some.inj hd]
      exact isIdentChar_of_isSpace hc
  regex := (regexAllowed_space hc _).trans h.regex

theorem regexAllowed_eq (h : Beside st u) (hc : isSpace c = false) (s : List Char) :
    regexAllowed (s ++ c :: st.before) = regexAllowed (s ++ c :: u.before) :=
  regexAllowed_append_cons s hc (fun _ d hd => h.words d (.inl hd)) fun _ d hd => h.words d (.inr hd)

theorem statement_comment (h : Beside st u) (hc : c = '/' ∨ c = '*')
    (hs : st.statement ('/' :: c :: s) = .ok (a, b)) : u.statement ('/' :: c :: s) = .ok (a, b) := by
  let mode : Mode := if c = '/' then .lineComment else .blockComment false
  have reads (v : Scan) (hv : v.mode = .plain) : Reads v ['/', c] s
      { (v.begin '/' (.slash (regexAllowed v.before))).push c with mode := mode } := by
    refine .cons (step_slash hv _) (.cons ?_ .nil)
    rcases hc with rfl | rfl <;> rfl
  have alike : Alike { (st.begin '/' (.slash (regexAllowed st.before))).push c with mode := mode }
      { (u.begin '/' (.slash (regexAllowed u.before))).push c with mode := mode } := by
    refine ⟨h.brackets, h.complete, rfl, fun t => ?_⟩
    have same := h.regexAllowed_eq (c := '/') (by decide) (t ++ [c])
    rwa [List.append_assoc, List.append_assoc] at same
  obtain ⟨d, rfl, hd⟩ := (reads st h.modes.1).exists_statement hs
  exact (reads u h.modes.2).statement (statement_congr alike hd)

/-- What remains of a statement is read as without the comment, unless it begins with a division. -/
theorem statement (h : Beside st u) (hd : st.divides s = false)
    (hs : st.statement s = .ok (a, b)) : u.statement s = .ok (a, b) := by
  induction s generalizing st u a with
  | nil =>
    obtain ⟨hf, hab⟩ := statement_nil.mp hs
    have rests : u.Rests := ⟨h.brackets ▸ (finish_iff.mp hf).brackets, .inl h.modes.2⟩
    exact statement_nil.mpr ⟨finish_iff.mpr rests, hab⟩
  | cons c s ih =>
    by_cases hc : isSpace c = true
    · have rest : (st.push c).divides s = false := by
        rw [divides, List.dropWhile_cons_of_pos hc] at hd
        rwa [divides, Scan.push, regexAllowed_space hc]
      have first := step_space_eq h.modes.1 hc s
      have second := step_space_eq h.modes.2 hc s
      rw [← h.brackets, ← h.complete] at second
      by_cases ends : c = '\n' ∧ st.brackets = [] ∧ isComplete st.last ∧ startsStatement s
      · rw [if_pos ends] at first second
        rcases statement_cons.mp hs with ⟨_, _, hm, -⟩ | ⟨-, hab⟩ | ⟨he, -⟩
        · simp [first] at hm
        · exact statement_cons.mpr (.inr (.inl ⟨second, hab⟩))
        · simp [first] at he
      · rw [if_neg ends] at first second
        have read : Reads st [c] s (st.push c) := .cons first .nil
        have read' : Reads u [c] s (u.push c) := .cons second .nil
        obtain ⟨d, rfl, hd⟩ := read.exists_statement hs
        exact read'.statement (ih (h.push hc) rest hd)
    have hc : isSpace c = false := by simpa using hc
    by_cases comment : c = '/' ∧ regexAllowed st.before = false
    · -- The slash begins a comment, or it would divide.
      obtain ⟨rfl, value⟩ := comment
      rw [divides, value, List.dropWhile_cons_of_neg (by decide)] at hd
      have begins : Chunk.comment? ('/' :: s) ≠ none := by
        intro none
        simp [none] at hd
      cases s with
      | nil => exact absurd (Chunk.comment?_singleton '/') begins
      | cons d s =>
        refine h.statement_comment ?_ hs
        by_contra hn
        exact begins (Chunk.comment?_eq_none.mpr (.inr (not_or.mp hn)))
    · refine statement_of_stepAlike statement_congr ?_ hs
      refine step_alike s h.brackets h.complete (h.modes.1.trans h.modes.2.symm) ?_
        (h.regexAllowed_eq hc)
      intro hslash
      rw [h.regex]
      simpa [hslash] using comment

end Beside

/-- From a place between tokens, behind a blank and behind a comment. -/
theorem exists_beside (hm : IsOpenMode st.mode) (t : List Char) :
    ∃ v x, (∀ r, st.step ' ' r = .ok (.more v)) ∧ Reads st commentGap t x ∧ Beside v x ∧
      v.before = ' ' :: st.before := by
  obtain ⟨x, hx, hxm, hxb, hxl⟩ := @reads_gap false commentGap t st.settle isGap_commentGap rfl (by simp)
  have reads : Reads st commentGap t x := by
    cases hx with
    | cons hs hr =>
      refine .cons ?_ hr
      rwa [step_settle hm (fun _ => by decide) (fun _ => by decide)]
  refine ⟨st.settle.push ' ', x, step_settle_space hm, reads, ⟨⟨rfl, hxm⟩, hxb.symm, ?_, ?_, ?_⟩, rfl⟩
  · rw [hxl]
    rfl
  · rw [hx.before]
    rintro c (hc | hc)
    all_goals
      rw [← Option.some.inj hc]
      decide
  · rw [hx.before]
    rfl

theorem Reads.statement_error {e : Placed} (h : Reads st s t u) (ht : u.statement t = .error e) :
    st.statement (s ++ t) = .error e := by
  induction h with
  | nil => exact ht
  | cons hs _ ih =>
    rw [List.cons_append, Scan.statement, hs]
    simp only [bind, Except.bind, ih ht]

/-- A regular expression that nothing ends on its line is a fault where it began. -/
theorem statement_unterminated {inClass : Bool} (hm : st.mode = .regex inClass false)
    (hs : ∀ c ∈ s.takeWhile (· != '\n'), c ≠ '/' ∧ c ≠ '\\') :
    st.statement s = .error (.unterminatedRegex, st.since) := by
  induction s generalizing st inClass with
  | nil => simp [Scan.statement, finish, hm, bind, Except.bind]
  | cons c s ih =>
    by_cases hc : c = '\n'
    · simp [Scan.statement, step, hm, regexStep, hc, bind, Except.bind]
    · rw [List.takeWhile_cons_of_pos (by simpa using hc), List.forall_mem_cons] at hs
      obtain ⟨⟨slash, escape⟩, hs⟩ := hs
      obtain ⟨u, k, hu, hmode, hsince⟩ : ∃ u k, st.step c s = .ok (.more u) ∧
          u.mode = .regex k false ∧ u.since = st.since := by
        simp only [step, hm, regexStep, slash, escape, hc, if_false, false_and, Bool.false_eq_true]
        split
        · exact ⟨_, true, rfl, rfl, rfl⟩
        split
        · exact ⟨_, false, rfl, rfl, rfl⟩
        · exact ⟨_, inClass, rfl, rfl, rfl⟩
      have read : Reads st [c] s u := .cons hu .nil
      rw [← hsince]
      exact read.statement_error (ih hmode hs)

/-- Where a regular expression may stand, a slash with no other behind it on its line is a fault. -/
theorem statement_slash (hm : st.mode = .plain) (hr : regexAllowed st.before = true)
    (hg : ∀ c ∈ a, isSpace c = true) (hc : Chunk.comment? ('/' :: s) = none)
    (hs : ∀ c ∈ s.takeWhile (· != '\n'), c ≠ '/' ∧ c ≠ '\\') :
    st.statement (a ++ '/' :: s) = .error (.unterminatedRegex, st.offset + size a) := by
  induction a generalizing st with
  | nil =>
    have slash : Reads st ['/'] s (st.begin '/' (.slash true)) := by
      rw [← hr]
      exact .cons (step_slash hm _) .nil
    refine slash.statement_error ?_
    cases s with
    | nil => rfl
    | cons d s =>
      obtain ⟨h1, h2⟩ := (Chunk.comment?_eq_none.mp hc).resolve_left (by simp)
      have regex := @statement_unterminated (d :: s) (st.begin '/' (.regex false false)) false rfl hs
      rw [Scan.statement] at regex ⊢
      simp only [step, begin, h1, h2, if_false, if_true] at regex ⊢
      exact regex
  | cons c a ih =>
    obtain ⟨hcs, hg⟩ := List.forall_mem_cons.mp hg
    have none : startsStatement (a ++ '/' :: s) = false := by
      rw [Bool.eq_false_iff]
      intro hk
      obtain ⟨d, x, hd, hident⟩ := exists_of_startsStatement hk
      rw [List.dropWhile_append_of_pos hg, List.dropWhile_cons_of_neg (by decide)] at hd
      obtain rfl : '/' = d := (List.cons.inj hd).1
      exact absurd hident (by decide)
    have step := step_space_eq hm hcs (a ++ '/' :: s)
    rw [if_neg (by simp [none])] at step
    have blank : Reads st [c] (a ++ '/' :: s) (st.push c) := .cons step .nil
    have rest := @ih (st.push c) rfl ((regexAllowed_space hcs _).trans hr) hg
    rw [size_cons, ← Nat.add_assoc, Nat.add_comm st.offset]
    exact blank.statement_error rest

end Scan

end

end StyleExports.EsModule
