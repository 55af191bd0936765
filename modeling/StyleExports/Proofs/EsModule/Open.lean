import StyleExports.Proofs.EsModule.Close
import StyleExports.Proofs.EsModule.Leads

namespace StyleExports.EsModule

open Text

/-- Whether a text begins with the keyword of a statement does not depend on what follows its last
word. -/
theorem startsStatement_append_of_head {s t : List Char} {d : Char} (hs : d ∈ s)
    (hd : isSpace d = false) (ht : ∀ c ∈ t.head?, isIdentChar c = false) :
    startsStatement (s ++ t) = startsStatement s := by
  unfold startsStatement
  rw [(dropWhile_isSpace_append hs hd t).1, Bool.eq_iff_iff, List.any_eq_true, List.any_eq_true]
  refine exists_congr fun k => and_congr_right fun hk => ?_
  rw [afterKeyword?_isSome_of_head (isIdentChar_of_mem_keyword hk) ht]

theorem exists_of_startsStatement {s : List Char} (h : startsStatement s = true) :
    ∃ c t, s.dropWhile isSpace = c :: t ∧ isIdentChar c = true := by
  unfold startsStatement at h
  obtain ⟨k, hk, hs⟩ := List.any_eq_true.mp h
  obtain ⟨r, hr⟩ := Option.isSome_iff_exists.mp hs
  obtain ⟨hs, -⟩ := afterKeyword?_eq_some.mp hr
  have letters := isIdentChar_of_mem_keyword hk
  cases k with
  | nil => exact absurd hk (by decide)
  | cons c k => exact ⟨c, k ++ r, hs, letters c List.mem_cons_self⟩

namespace Scan

variable {st u v : Scan} {c : Char} {s t r a b : List Char}

/-- Outside everything: nothing is open that the end of the text would leave open. -/
structure Rests (st : Scan) : Prop where
  brackets : st.brackets = []
  mode : st.mode = .plain ∨ st.mode = .slash false ∨ st.mode = .lineComment ∨ st.mode = .flags

/-- Whether a line feed ends the statement before a keyword. After a slash an operand is missing. -/
def breaks (st : Scan) : Bool := st.mode != .slash false && isComplete st.last

theorem Alike.rests (h : st.Alike u) (hst : st.Rests) : u.Rests := by
  refine ⟨h.brackets ▸ hst.brackets, ?_⟩
  rw [← h.mode]
  exact hst.mode

theorem Alike.breaks (h : st.Alike u) : st.breaks = u.breaks := by
  rw [Scan.breaks, Scan.breaks, h.mode, h.complete]

theorem finish_iff : st.finish = .ok () ↔ st.Rests := by
  constructor
  · intro h
    unfold finish at h
    split at h
    case h_5 h1 h2 h3 h4 =>
      split at h
      · rename_i hb
        refine ⟨hb, ?_⟩
        cases hm : st.mode with
        | plain => exact .inl rfl
        | slash regex =>
          cases regex with
          | false => exact .inr (.inl rfl)
          | true => exact absurd hm h4
        | lineComment => exact .inr (.inr (.inl rfl))
        | blockComment star => exact absurd hm (h2 star)
        | literal opening l => exact absurd hm (h1 opening l)
        | regex inClass esc => exact absurd hm (h3 inClass esc)
        | flags => exact .inr (.inr (.inr rfl))
      · simp at h
    all_goals simp at h
  · rintro ⟨hb, hm | hm | hm | hm⟩ <;> simp [finish, hb, hm]

/-- What follows matters to no character but a line feed. -/
theorem step_of_ne (hc : c ≠ '\n') (r t : List Char) : st.step c r = st.step c t := by
  unfold step plainStep
  simp [hc]

/-- A statement is read alike before all texts with which no word goes on. -/
theorem Reads.before_gap (h : Reads st s t u) (hs : ∀ d ∈ s.getLast?, isSpace d = false)
    (ht : ∀ d ∈ t.head?, isIdentChar d = false) (hr : ∀ d ∈ r.head?, isIdentChar d = false) :
    Reads st s r u := by
  induction h with
  | nil => exact .nil
  | @cons st v w c s t h _ ih =>
    cases s with
    | nil =>
      have hc : c ≠ '\n' := by
        rintro rfl
        exact absurd (hs '\n' rfl) (by decide)
      rw [step_of_ne hc _ ([] ++ r)] at h
      exact .cons h (ih (by simp) ht)
    | cons d s =>
      have hlast : ∀ e ∈ (d :: s).getLast?, isSpace e = false := by
        intro e he
        exact hs e (by rwa [List.getLast?_cons_cons])
      have hne : d :: s ≠ [] := List.cons_ne_nil d s
      have hm := List.getLast_mem hne
      have hl := hlast _ (List.getLast?_eq_some_getLast hne)
      have same : startsStatement (d :: s ++ t) = startsStatement (d :: s ++ r) :=
        (startsStatement_append_of_head hm hl ht).trans
          (startsStatement_append_of_head hm hl hr).symm
      rw [st.step_congr c same] at h
      exact .cons h (ih hlast ht)

theorem plainStep_newline (hb : st.brackets = []) (r : List Char) : st.plainStep '\n' r =
    .ok (if isComplete st.last ∧ startsStatement r then .endsBefore else .more (st.push '\n')) := by
  have space : isSpace '\n' = true := by decide
  simp only [plainStep, hb, Literal.open?, Char.reduceEq, or_self, if_false, space, if_true, true_and,
    false_and]
  split <;> rfl

theorem Rests.step_newline (hst : st.Rests) (r : List Char) : ∃ v : Scan,
    st.step '\n' r = v.plainStep '\n' r ∧ v.brackets = [] ∧ isComplete v.last = st.breaks := by
  obtain ⟨hb, hm | hm | hm | hm⟩ := hst
  · exact ⟨st, by simp only [step, hm], hb, by simp [breaks, hm]⟩
  · refine ⟨{ st with last := some '/' }, ?_, hb, by simp [breaks, hm, isComplete]⟩
    simp only [step, hm, Char.reduceEq, if_false, Bool.false_eq_true]
  · exact ⟨st, by simp only [step, hm, if_true], hb, by simp [breaks, hm]⟩
  · have ident : isIdentChar '\n' = false := by decide
    exact ⟨st, by simp only [step, hm, ident, Bool.false_eq_true, if_false], hb, by simp [breaks, hm]⟩

/-- A line feed ends a statement before a keyword if the line is complete. -/
theorem step_newline_ends (hst : st.Rests) (hb : st.breaks = true) (hr : startsStatement r = true) :
    st.step '\n' r = .ok .endsBefore := by
  obtain ⟨v, hv, hbr, hc⟩ := hst.step_newline r
  rw [hv, plainStep_newline hbr, if_pos ⟨hc.trans hb, hr⟩]

theorem step_newline_goes_on (hst : st.Rests) (hr : ¬(st.breaks = true ∧ startsStatement r = true)) :
    ∃ u, st.step '\n' r = .ok (.more u) ∧ u.Rests ∧ u.mode = .plain ∧ u.breaks = st.breaks := by
  obtain ⟨v, hv, hbr, hc⟩ := hst.step_newline r
  refine ⟨v.push '\n', ?_, ⟨hbr, .inl rfl⟩, rfl, hc⟩
  rw [hv, plainStep_newline hbr, if_neg (by rwa [hc])]

theorem rests_of_endsBefore (h : st.step '\n' r = .ok .endsBefore) :
    st.Rests ∧ st.breaks = true ∧ startsStatement r = true := by
  have plain {v : Scan} (h : v.plainStep '\n' r = .ok .endsBefore) :
      v.brackets = [] ∧ isComplete v.last = true ∧ startsStatement r = true := by
    unfold plainStep at h
    repeat' split at h
    all_goals simp_all
  cases hm : st.mode with
  | plain =>
    simp only [step, hm] at h
    obtain ⟨hb, hc, hr⟩ := plain h
    exact ⟨⟨hb, .inl hm⟩, by simp [breaks, hm, hc], hr⟩
  | slash regex =>
    cases regex with
    | false =>
      simp only [step, hm, Char.reduceEq, if_false, Bool.false_eq_true] at h
      simp [isComplete] at plain
      have hc := (plain h).2.1
      simp at hc
    | true => simp [step, hm, regexStep] at h
  | lineComment =>
    simp only [step, hm, if_true] at h
    obtain ⟨hb, hc, hr⟩ := plain h
    exact ⟨⟨hb, .inr (.inr (.inl hm))⟩, by simp [breaks, hm, hc], hr⟩
  | blockComment star => simp [step, hm] at h
  | literal opening l =>
    simp only [step, hm] at h
    split at h <;> simp at h
  | regex inClass esc =>
    simp only [step, hm, regexStep] at h
    repeat' split at h
    all_goals simp at h
  | flags =>
    have ident : isIdentChar '\n' = false := by decide
    simp only [step, hm, ident, Bool.false_eq_true, if_false] at h
    obtain ⟨hb, hc, hr⟩ := plain h
    exact ⟨⟨hb, .inr (.inr (.inr hm))⟩, by simp [breaks, hm, hc], hr⟩

/-- A blank leads out of no literal, no regular expression and no comment between delimiters. -/
theorem mode_of_step_space (hst : st.Sound) (hc : isSpace c = true)
    (h : st.step c r = .ok (.more u)) (hu : u.Rests) :
    st.mode = .plain ∨ st.mode = .slash false ∨ st.mode = .lineComment ∨ st.mode = .flags := by
  have ne (d : Char) (hd : isSpace d = false) : c ≠ d := ne_of_class hc hd
  have slash := ne '/' (by decide)
  have star := ne '*' (by decide)
  have hm' := hu.mode
  cases hm : st.mode with
  | plain => exact .inl rfl
  | slash regex =>
    cases regex with
    | false => exact .inr (.inl rfl)
    | true =>
      simp only [step, hm, slash, star, if_false, if_true, regexStep, Bool.false_eq_true,
        false_and] at h
      repeat' split at h
      all_goals
        cases h
        try simp at hm'
  | lineComment => exact .inr (.inr (.inl rfl))
  | blockComment star =>
    simp only [step, hm, slash, and_false, if_false] at h
    cases h
    simp at hm'
  | literal opening l =>
    simp only [step, hm] at h
    split at h
    · cases h
      simp at hm'
    · rename_i hl
      have hq := Literal.closed_by (hst opening l hm) hl
      simp [ne '"' (by decide), ne '\'' (by decide), ne '`' (by decide), ne '}' (by decide)] at hq
    · simp at h
  | regex inClass esc =>
    simp only [step, hm, regexStep, slash, false_and, if_false] at h
    repeat' split at h
    all_goals
      cases h
      try simp at hm'
  | flags => exact .inr (.inr (.inr rfl))

theorem rests_of_step_space (hst : st.Sound) (hc : isSpace c = true)
    (h : st.step c r = .ok (.more u)) (hu : u.Rests) : st.Rests ∧ st.breaks = u.breaks := by
  have ne (d : Char) (hd : isSpace d = false) : c ≠ d := ne_of_class hc hd
  have plain {v : Scan} (h : v.plainStep c r = .ok (.more u)) : u = v.push c := by
    unfold plainStep at h
    simp only [Literal.open?, ne '"' (by decide), ne '\'' (by decide), ne '`' (by decide),
      ne '/' (by decide), ne '(' (by decide), ne '[' (by decide), ne '{' (by decide),
      ne ')' (by decide), ne ']' (by decide), ne '}' (by decide), ne ';' (by decide), or_self,
      if_false, false_and, hc, if_true] at h
    split at h
    · simp at h
    · exact (Step.more.inj (Except.ok.inj h)).symm
  have brackets : st.brackets = [] := by
    rw [← hu.brackets, step_brackets h]
    simp [ne '(' (by decide), ne '[' (by decide), ne '{' (by decide), ne ')' (by decide),
      ne ']' (by decide), ne '}' (by decide)]
  have modes := mode_of_step_space hst hc h hu
  refine ⟨⟨brackets, modes⟩, ?_⟩
  rcases modes with hm | hm | hm | hm
  · simp only [step, hm] at h
    rw [plain h, breaks, breaks, hm]
    rfl
  · simp only [step, hm, ne '/' (by decide), ne '*' (by decide), if_false, Bool.false_eq_true] at h
    rw [plain h, breaks, breaks, hm]
    rfl
  · simp only [step, hm] at h
    split at h
    · rw [plain h, breaks, breaks, hm]
      rfl
    · cases h
      rw [breaks, breaks, hm]
      rfl
  · have ident : isIdentChar c = false := isIdentChar_of_isSpace hc
    simp only [step, hm, ident, Bool.false_eq_true, if_false] at h
    rw [plain h, breaks, breaks, hm]
    rfl

theorem Reads.rests_of_spaces (h : Reads st s t u) (hst : st.Sound) (hs : ∀ d ∈ s, isSpace d = true)
    (hu : u.Rests) : st.Rests ∧ st.breaks = u.breaks := by
  induction h with
  | nil => exact ⟨hu, rfl⟩
  | @cons st v w c s t h _ ih =>
    obtain ⟨hv, hb⟩ := ih (step_sound hst h) (fun d hd => hs d (List.mem_cons_of_mem _ hd)) hu
    obtain ⟨hr, hb'⟩ := rests_of_step_space hst (hs c List.mem_cons_self) h hv
    exact ⟨hr, hb'.trans hb⟩

/-- A statement ends with a semicolon, or with the text, or at a line feed before a keyword. -/
theorem statement_cases (h : st.statement s = .ok (a, b)) : st.closes a = true ∨
    ∃ u, Reads st a b u ∧ u.Rests ∧
      (b = [] ∨ ∃ r, b = '\n' :: r ∧ u.breaks = true ∧ startsStatement r = true) := by
  induction s generalizing st a with
  | nil =>
    obtain ⟨hf, rfl, rfl⟩ := statement_nil.mp h
    exact .inr ⟨st, .nil, finish_iff.mp hf, .inl rfl⟩
  | cons c s ih =>
    have hab := statement_append h
    rcases statement_cons.mp h with ⟨u, d, hm, hs, rfl⟩ | ⟨he, rfl, rfl⟩ | ⟨he, rfl, rfl⟩
    · obtain rfl := statement_append hs
      rcases ih hs with hc | ⟨v, hv, hr, hb⟩
      · refine .inl ?_
        rw [st.step_congr c (startsStatement_append (mem_of_closes hc) b)] at hm
        rw [closes, hm]
        exact hc
      · exact .inr ⟨v, .cons hm hv, hr, hb⟩
    · obtain rfl := step_eq_endsBefore he
      obtain ⟨hr, hb, hk⟩ := rests_of_endsBefore he
      exact .inr ⟨st, .nil, hr, .inr ⟨s, rfl, hb, hk⟩⟩
    · refine .inl ?_
      obtain ⟨rfl, hb, hm⟩ := step_eq_endsWith he
      exact closes_semicolon_iff.mpr ⟨hb, hm⟩

/-- Behind a text that does not end it, a statement goes on with what follows. -/
theorem Reads.exists_statement (h : Reads st s t u) (hs : st.statement (s ++ t) = .ok (a, b)) :
    ∃ d, a = s ++ d ∧ u.statement t = .ok (d, b) := by
  induction h generalizing a with
  | nil => exact ⟨a, rfl, hs⟩
  | @cons st u v c s t h _ ih =>
    rw [List.cons_append] at hs
    rcases statement_cons.mp hs with ⟨w, d, hm, hw, rfl⟩ | ⟨he, -⟩ | ⟨he, -⟩
    · rw [h] at hm
      cases hm
      obtain ⟨e, rfl, he⟩ := ih hw
      exact ⟨e, rfl, he⟩
    · rw [h] at he
      cases he
    · rw [h] at he
      cases he

theorem reads_lineComment (hm : st.mode = .lineComment) (hs : ∀ d ∈ s, d ≠ '\n') :
    ∃ u, Reads st s t u ∧ u.mode = .lineComment ∧ u.brackets = st.brackets ∧ u.last = st.last := by
  induction s generalizing st with
  | nil => exact ⟨st, .nil, hm, rfl, rfl⟩
  | cons c s ih =>
    rw [List.forall_mem_cons] at hs
    have step : st.step c (s ++ t) = .ok (.more { st.push c with mode := .lineComment }) := by
      simp only [Scan.step, hm, hs.1, if_false]
    obtain ⟨u, hu, hmode, hb, hl⟩ := @ih { st.push c with mode := .lineComment } rfl hs.2
    exact ⟨u, .cons step hu, hmode, hb, hl⟩

theorem reads_blockComment {star : Bool} (hm : st.mode = .blockComment star)
    (hs : Chunk.commentRest? star s = some (s, [])) :
    ∃ u, Reads st s t u ∧ u.mode = .plain ∧ u.brackets = st.brackets ∧ u.last = st.last := by
  induction s generalizing st star with
  | nil => simp [Chunk.commentRest?] at hs
  | cons c s ih =>
    unfold Chunk.commentRest? at hs
    by_cases hc : (star && c == '/') = true
    · rw [if_pos hc] at hs
      simp only [Option.some.injEq, Prod.mk.injEq, List.cons.injEq, true_and] at hs
      have step : st.step c ([] ++ t) = .ok (.more (st.push c)) := by
        rw [Bool.and_eq_true, beq_iff_eq] at hc
        simp only [Scan.step, hm, hc, and_self, if_true]
      rw [hs.2]
      exact ⟨st.push c, .cons step .nil, rfl, rfl, rfl⟩
    · rw [if_neg hc] at hs
      simp only [Option.map_eq_some_iff, Prod.mk.injEq, Prod.exists, List.cons.injEq] at hs
      obtain ⟨x, y, hr, ⟨-, rfl⟩, rfl⟩ := hs
      have step : st.step c (x ++ t) =
          .ok (.more { st.push c with mode := .blockComment (c == '*') }) := by
        simp only [Bool.and_eq_true, beq_iff_eq] at hc
        simp only [Scan.step, hm, hc, if_false]
      obtain ⟨u, hu, hmode, hb, hl⟩ :=
        @ih { st.push c with mode := .blockComment (c == '*') } (c == '*') rfl hr
      exact ⟨u, .cons step hu, hmode, hb, hl⟩

theorem reads_slashes (hm : st.mode = .plain) (hs : ∀ d ∈ s, d ≠ '\n') : ∃ u,
    Reads st ('/' :: '/' :: s) t u ∧ u.mode = .lineComment ∧ u.brackets = st.brackets ∧
      u.last = st.last := by
  obtain ⟨u, hu, same⟩ := @reads_lineComment
    { (st.begin '/' (.slash (regexAllowed st.before))).push '/' with mode := .lineComment } s t rfl hs
  exact ⟨u, .cons (step_slash hm _) (.cons rfl hu), same⟩

theorem reads_slashStar (hm : st.mode = .plain) (hs : Chunk.commentRest? false s = some (s, [])) :
    ∃ u, Reads st ('/' :: '*' :: s) t u ∧ u.mode = .plain ∧ u.brackets = st.brackets ∧
      u.last = st.last := by
  obtain ⟨u, hu, same⟩ := @reads_blockComment
    { (st.begin '/' (.slash (regexAllowed st.before))).push '*' with mode := .blockComment false }
    s t false rfl hs
  exact ⟨u, .cons (step_slash hm _) (.cons rfl hu), same⟩

/-- A comment leaves a statement as it was. -/
theorem reads_comment (hm : st.mode = .plain) (hst : st.Rests)
    (hs : Chunk.comment? s = some (some (s, []))) :
    ∃ u, Reads st s t u ∧ u.Rests ∧ u.breaks = st.breaks := by
  have same {u : Scan} (hmode : u.mode = .plain ∨ u.mode = .lineComment)
      (hb : u.brackets = st.brackets) (hl : u.last = st.last) : u.Rests ∧ u.breaks = st.breaks := by
    refine ⟨⟨hb.trans hst.brackets, ?_⟩, ?_⟩
    · exact hmode.imp_right fun h => .inr (.inl h)
    · rw [breaks, breaks, hl, hm]
      rcases hmode with h | h
      · rw [h]
      · rw [h]
        rfl
  unfold Chunk.comment? at hs
  split at hs
  · rename_i r
    simp only [Option.some.injEq, Prod.mk.injEq, List.cons.injEq, true_and] at hs
    have line : ∀ d ∈ r, d ≠ '\n' := by
      intro d hd
      simpa using List.dropWhile_eq_nil_iff.mp hs.2 d hd
    obtain ⟨u, hu, hmode, hb, hl⟩ := reads_slashes (t := t) hm line
    exact ⟨u, hu, same (.inr hmode) hb hl⟩
  · rename_i r
    simp only [Option.some.injEq, Option.map_eq_some_iff, Prod.mk.injEq, Prod.exists,
      List.cons.injEq, true_and] at hs
    obtain ⟨x, y, hr, rfl, rfl⟩ := hs
    obtain ⟨u, hu, hmode, hb, hl⟩ := reads_slashStar (t := t) hm hr
    exact ⟨u, hu, same (.inl hmode) hb hl⟩
  · simp at hs

end Scan

/-- A statement without blanks after it that no semicolon closes; `b` tells whether a line feed ends
it before a keyword. -/
structure IsOpen (s : List Char) (b : Bool) : Prop where
  begins : ∃ c t, s = c :: t ∧ ¬(isSpace c ∨ c = ';') ∧ Chunk.comment? s = none
  last : ∀ c ∈ s.getLast?, isSpace c = false
  rests : ∃ u, Scan.Reads Scan.start s [] u ∧ u.Rests ∧ u.breaks = b

section

variable {c : Char} {s t r a b : List Char} {n : Nat}

theorem not_isIdentChar_newline (t : List Char) :
    ∀ d ∈ ('\n' :: t).head?, isIdentChar d = false := forall_head?_cons (by decide)

/-- What no semicolon closes is open without the blanks at its end. -/
theorem isOpen_of_reads {u : Scan} (hs : ¬(isSpace c ∨ c = ';'))
    (hk : Chunk.comment? (c :: s) = none) (hab : a ++ b = c :: s) (ha : a ≠ [])
    (h : Scan.Reads Scan.start a b u) (hu : u.Rests)
    (hb : ∀ d ∈ b.head?, isIdentChar d = false) : IsOpen (dropEndWhile isSpace a) u.breaks := by
  obtain ⟨e, he, hae⟩ := exists_dropEndWhile isSpace a
  generalize hw : dropEndWhile isSpace a = w at hae ⊢
  subst hae
  obtain ⟨v, hv, hr⟩ := h.split
  obtain ⟨hvr, hbr⟩ := hr.rests_of_spaces (hv.sound Scan.sound_start) he hu
  have last : ∀ d ∈ w.getLast?, isSpace d = false := hw ▸ last_dropEndWhile isSpace _
  have gap : ∀ d ∈ (e ++ b).head?, isIdentChar d = false := by
    cases e with
    | nil => exact hb
    | cons d e =>
      exact forall_head?_cons (Scan.isIdentChar_of_isSpace (he d (by simp)))
  refine ⟨?_, last, v, hv.before_gap last gap (by simp), hvr, hbr⟩
  cases w with
  | nil =>
    -- The first character is no blank, so it is not gone.
    cases e with
    | nil => simp at ha
    | cons d e =>
      obtain rfl : d = c := (List.cons.inj hab).1
      exact absurd (.inl (he d (by simp))) hs
  | cons d w =>
    obtain rfl : d = c := (List.cons.inj hab).1
    rw [← hab, List.append_assoc] at hk
    exact ⟨d, w, rfl, hs, Chunk.comment?_of_append hk⟩

namespace IsOpen

variable {v : Bool}

theorem comment?_append (h : IsOpen s v) (t : List Char) : Chunk.comment? (s ++ '\n' :: t) = none := by
  obtain ⟨c, w, rfl, -, hk⟩ := h.begins
  cases w with
  | nil => exact Chunk.comment?_eq_none.mpr (.inr ⟨by decide, by decide⟩)
  | cons d w => exact Chunk.comment?_eq_none.mpr (Chunk.comment?_eq_none.mp hk)

theorem dropEndWhile_eq (h : IsOpen s v) {e : List Char} (he : ∀ c ∈ e, isSpace c = true) :
    dropEndWhile isSpace (s ++ e) = s := by
  rw [dropEndWhile_append_of_all s he]
  exact dropEndWhile_of_last h.last

theorem reads (h : IsOpen s v) (t : List Char) :
    ∃ u, Scan.Reads Scan.start s ('\n' :: t) u ∧ u.Rests ∧ u.breaks = v := by
  obtain ⟨u, hu, hr, hb⟩ := h.rests
  exact ⟨u, hu.before_gap h.last (by simp) (not_isIdentChar_newline t), hr, hb⟩

/-- The end of the text ends an open statement. -/
theorem chunks_last (h : IsOpen s v) (n : Nat) : chunks n (s ++ ['\n']) = .ok [⟨n, s, false⟩] := by
  obtain ⟨u, hu, hr, -⟩ := h.reads []
  have none : startsStatement [] = false := by decide
  obtain ⟨w, hw, hwr, -⟩ := Scan.step_newline_goes_on hr (r := []) (by simp [none])
  have rest : u.statement ['\n'] = .ok (['\n'], []) :=
    Scan.statement_cons.mpr (.inl ⟨w, [], hw, Scan.statement_nil.mpr ⟨Scan.finish_iff.mpr hwr, rfl, rfl⟩,
      rfl⟩)
  have whole := hu.statement rest
  have hk := h.comment?_append []
  have trimmed := h.dropEndWhile_eq (e := ['\n']) (forall_mem_of_all (by decide))
  obtain ⟨c, x, rfl, hc, -⟩ := h.begins
  rw [List.cons_append] at whole hk trimmed ⊢
  rw [chunks_of_statement hc hk whole, chunks, Chunk.trimmed, trimmed]
  rfl

theorem chunks_alone (h : IsOpen s v) (n : Nat) : chunks n s = .ok [⟨n, s, false⟩] := by
  obtain ⟨u, hu, hr, -⟩ := h.rests
  have whole := hu.statement (Scan.statement_nil.mpr ⟨Scan.finish_iff.mpr hr, rfl, rfl⟩)
  rw [List.append_nil] at whole
  have trimmed : dropEndWhile isSpace s = s := dropEndWhile_of_last h.last
  obtain ⟨c, x, rfl, hc, hk⟩ := h.begins
  rw [chunks_of_statement hc hk whole, chunks, Chunk.trimmed, trimmed]
  rfl

/-- A line feed ends a complete statement before the keyword of another. -/
theorem chunks_broken (h : IsOpen s true) (ht : startsStatement t = true) (n : Nat) :
    chunks n (s ++ '\n' :: t) = (chunks (n + size s + 1) t).map (⟨n, s, false⟩ :: ·) := by
  obtain ⟨u, hu, hr, hb⟩ := h.reads t
  have rest : u.statement ('\n' :: t) = .ok ([], '\n' :: t) :=
    Scan.statement_cons.mpr (.inr (.inl ⟨Scan.step_newline_ends hr hb ht, rfl, rfl⟩))
  have whole := hu.statement rest
  rw [List.append_nil] at whole
  have hk := h.comment?_append t
  have trimmed := h.dropEndWhile_eq (e := []) (by simp)
  rw [List.append_nil] at trimmed
  obtain ⟨c, x, rfl, hc, -⟩ := h.begins
  rw [List.cons_append] at whole hk ⊢
  rw [chunks_of_statement hc hk whole, chunks_skip (.inl (by decide)), Chunk.trimmed, trimmed]

/-- A comment on the next line belongs to an open statement, which is as open with it. -/
theorem comment (h : IsOpen s v) (ht : IsLine t true) : IsOpen (s ++ '\n' :: t) v := by
  cases ht with
  | comment hc htrim =>
    obtain ⟨r, hr⟩ := Chunk.head_of_comment? hc
    have none : startsStatement t = false := by
      rw [Bool.eq_false_iff]
      intro hs
      obtain ⟨d, x, hd, hi⟩ := exists_of_startsStatement hs
      rw [hr, List.dropWhile_cons_of_neg (by decide)] at hd
      obtain rfl : '/' = d := (List.cons.inj hd).1
      exact absurd hi (by decide)
    obtain ⟨u, hu, hrests, hb⟩ := h.reads t
    obtain ⟨w, hw, hwr, hwm, hwb⟩ := Scan.step_newline_goes_on hrests (r := t) (by simp [none])
    obtain ⟨x, hx, hxr, hxb⟩ := Scan.reads_comment (t := []) hwm hwr hc
    refine ⟨?_, ?_, x, ?_, hxr, hxb.trans (hwb.trans hb)⟩
    · obtain ⟨c, y, hy, hn, -⟩ := h.begins
      exact ⟨c, y ++ '\n' :: t, by rw [hy]; rfl, hn, h.comment?_append t⟩
    · have shape : s ++ '\n' :: t = s ++ ['\n'] ++ t := by rw [List.append_assoc]; rfl
      rw [shape, List.getLast?_append_of_ne_nil _ (by simp [hr]), ← htrim]
      exact last_dropEndWhile isSpace t
    · have first : Scan.Reads Scan.start s ('\n' :: t ++ []) u := by rwa [List.append_nil]
      have second : Scan.Reads u ('\n' :: t) [] x := .cons (by rwa [List.append_nil]) hx
      exact first.append second

end IsOpen

end

end StyleExports.EsModule
