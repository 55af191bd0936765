import StyleExports.Proofs.Stylesheet.Reading

namespace StyleExports.Stylesheet

open Text

namespace Scan

/-- Whether a character means nothing to the automaton, wherever it stands. -/
def isQuiet (c : Char) : Bool :=
  !(isQuote c || isBlank c || c ∈ ['/', '*', '\\', '#', '(', ')', '[', ']', '{', '}', ';'])

/-- What strings begin and end with are quotes. -/
def Sound (st : Scan) : Prop :=
  match st.mode with
  | .quoted q _ => isQuote q = true
  | .interpolationQuoted _ q _ => isQuote q = true
  | _ => True

variable {st : Scan} {c d : Char}

theorem sound_start : start.Sound := trivial

theorem sound_plainStep (st : Scan) (c : Char) : (plainStep true st c).Sound := by
  unfold plainStep
  split
  · assumption
  · repeat' split
    all_goals trivial

theorem sound_interpolationStep (depth braces : Nat) (c : Char) :
    (interpolationStep depth braces c).Sound := by
  unfold interpolationStep
  split
  · assumption
  · repeat' split
    all_goals trivial

theorem Sound.step (h : st.Sound) (c : Char) : (st.step true c).Sound := by
  obtain ⟨depth, mode⟩ := st
  unfold Scan.step
  split
  · exact sound_plainStep _ c
  · cases mode with
    | plain => exact sound_plainStep _ c
    | comment star => dsimp only; split <;> trivial
    | quoted q esc =>
      have hq : isQuote q = true := h
      dsimp only
      repeat' split
      all_goals first | exact hq | trivial
    | interpolation k => exact sound_interpolationStep depth k c
    | interpolationQuoted k q esc =>
      have hq : isQuote q = true := h
      dsimp only
      repeat' split
      all_goals first | exact hq | exact sound_interpolationStep depth k c | trivial
    | _ => trivial

/-- Where a quiet character changes nothing. -/
def Calm (st : Scan) : Prop :=
  match st.mode with
  | .plain | .comment false | .interpolation _ => True
  | .quoted q false | .interpolationQuoted _ q false => isQuote q = true
  | _ => False

theorem isQuiet_apart (h : isQuiet c = true) : (∀ q, isQuote q = true → c ≠ q) ∧
    isQuote c = false ∧ c ≠ '\n' ∧ c ∉ ['/', '*', '\\', '#', '(', ')', '[', ']', '{', '}', ';'] := by
  have newline : c ≠ '\n' := ne_of_class h (by decide)
  have quote (q : Char) (hq : isQuote q = true) : c ≠ q := ne_of_class h (by simp [isQuiet, hq])
  simp only [isQuiet, Bool.not_eq_true', Bool.or_eq_false_iff, decide_eq_false_iff_not] at h
  exact ⟨quote, h.1.1, newline, h.2⟩

theorem plainStep_quiet (h : isQuiet c = true) (st : Scan) :
    plainStep true st c = { st with mode := .plain } := by
  obtain ⟨-, quote, -, marks⟩ := isQuiet_apart h
  simp only [List.mem_cons, List.not_mem_nil, or_false, not_or] at marks
  simp [plainStep, quote, marks]

theorem interpolationStep_quiet (h : isQuiet c = true) (depth braces : Nat) :
    interpolationStep depth braces c = ⟨depth, .interpolation braces⟩ := by
  obtain ⟨-, quote, -, marks⟩ := isQuiet_apart h
  simp only [List.mem_cons, List.not_mem_nil, or_false, not_or] at marks
  simp [interpolationStep, quote, marks]

theorem Calm.step (h : st.Calm) (hc : isQuiet c = true) : st.step true c = st := by
  obtain ⟨quotes, -, newline, marks⟩ := isQuiet_apart hc
  simp only [List.mem_cons, List.not_mem_nil, or_false, not_or] at marks
  obtain ⟨depth, mode⟩ := st
  cases mode with
  | plain => exact plainStep_quiet hc _
  | comment star =>
    cases star with
    | true => exact h.elim
    | false => simp [Scan.step, isFree, marks]
  | quoted q esc =>
    cases esc with
    | true => exact h.elim
    | false => simp [Scan.step, isFree, newline, marks, quotes q h]
  | interpolation k => exact interpolationStep_quiet hc depth k
  | interpolationQuoted k q esc =>
    cases esc with
    | true => exact h.elim
    | false => simp [Scan.step, isFree, newline, marks, quotes q h]
  | _ => exact h.elim

theorem Calm.run {w : List Char} (h : st.Calm) (hw : ∀ c ∈ w, isQuiet c = true) :
    Scan.run true st w = st := by
  induction w with
  | nil => rfl
  | cons c w ih =>
    rw [List.forall_mem_cons] at hw
    rw [Scan.run, List.foldl_cons, h.step hw.1]
    exact ih hw.2

theorem Sound.calm_step (h : st.Sound) (hc : isQuiet c = true) : (st.step true c).Calm := by
  obtain ⟨quotes, -, newline, marks⟩ := isQuiet_apart hc
  simp only [List.mem_cons, List.not_mem_nil, or_false, not_or] at marks
  obtain ⟨depth, mode⟩ := st
  cases mode with
  | quoted q esc =>
    have hq : isQuote q = true := h
    cases esc <;> simp [Scan.step, isFree, newline, marks, quotes q hq, Calm, hq]
  | interpolationQuoted k q esc =>
    have hq : isQuote q = true := h
    cases esc <;> simp [Scan.step, isFree, newline, marks, quotes q hq, Calm, hq]
  | interpolation k =>
    have calm : (⟨depth, .interpolation k⟩ : Scan).Calm := trivial
    rwa [calm.step hc]
  | comment star =>
    have star : (c == '*') = false := by simp [marks]
    simp [Scan.step, isFree, marks, star, Calm]
  | _ => simp [Scan.step, isFree, marks, plainStep_quiet hc, Calm]

end Scan

/-- A text and the same text with quiet characters put in behind some of its quiet characters. -/
inductive Widens : List Char → List Char → Prop where
  | nil : Widens [] []
  | cons (c : Char) {s t : List Char} (h : Widens s t) : Widens (c :: s) (c :: t)
  | word {c : Char} {w s t : List Char} (hc : Scan.isQuiet c = true)
      (hw : ∀ d ∈ w, Scan.isQuiet d = true) (h : Widens s t) : Widens (c :: s) (c :: (w ++ t))

namespace Widens

variable {s t : List Char} {st : Scan}

theorem head? (h : Widens s t) : t.head? = s.head? := by
  cases h <;> rfl

theorem getLast? (h : Widens s t) {c : Char} (hc : c ∈ t.getLast?) :
    c ∈ s.getLast? ∨ Scan.isQuiet c = true := by
  induction h with
  | nil => exact .inl hc
  | @cons d s t h ih =>
    rw [List.getLast?_cons, Option.mem_some] at hc
    rw [List.getLast?_cons, Option.mem_some]
    cases ht : t.getLast? with
    | none =>
      obtain rfl := List.getLast?_eq_none_iff.mp ht
      obtain rfl : s = [] := List.head?_eq_none_iff.mp h.head?.symm
      exact .inl hc
    | some e =>
      rw [ht] at hc
      obtain rfl : e = c := hc
      exact (ih ht).imp_left fun he => by rw [Option.mem_def.mp he, Option.getD_some]
  | @word d w s t hd hw h ih =>
    rw [← List.cons_append, List.getLast?_append] at hc
    cases ht : t.getLast? with
    | none =>
      have quiet : ∀ e ∈ d :: w, Scan.isQuiet e = true := List.forall_mem_cons.mpr ⟨hd, hw⟩
      rw [ht, Option.none_or] at hc
      exact .inr (quiet c (List.mem_of_getLast? hc))
    | some e =>
      rw [ht, Option.some_or] at hc
      obtain rfl : e = c := Option.some.inj hc
      exact (ih ht).imp_left fun he => by
        rw [List.getLast?_cons, Option.mem_def.mp he, Option.getD_some, Option.mem_some]

theorem last (h : Widens s t) (hs : ∀ c ∈ s.getLast?, isBlank c = false) :
    ∀ c ∈ t.getLast?, isBlank c = false := by
  intro c hc
  rcases h.getLast? hc with hc | hc
  · exact hs c hc
  · simp only [Scan.isQuiet, Bool.not_eq_true', Bool.or_eq_false_iff] at hc
    exact hc.1.2

/-- The automaton gets to the same place. -/
theorem run (h : Widens s t) (hs : st.Sound) : Scan.run true st t = Scan.run true st s := by
  induction h generalizing st with
  | nil => rfl
  | cons c h ih => exact ih (hs.step c)
  | @word c w s t hc hw h ih =>
    have calm := (hs.calm_step hc).run hw
    change Scan.run true (st.step true c) (w ++ t) = Scan.run true (st.step true c) s
    rw [Scan.run_append, calm, ih (hs.step c)]

theorem passes {isEnd : Char → Bool} (hq : ∀ c, Scan.isQuiet c = true → isEnd c = false)
    (h : Widens s t) (hs : st.Sound) (hp : Scan.Passes true isEnd st s) :
    Scan.Passes true isEnd st t := by
  induction h generalizing st with
  | nil => trivial
  | cons c h ih => exact ⟨hp.1, ih (hs.step c) hp.2⟩
  | @word c w s t hc hw h ih =>
    refine ⟨hp.1, Scan.passes_append.mpr ⟨Scan.passes_of_all fun d hd => hq d (hw d hd), ?_⟩⟩
    rw [(hs.calm_step hc).run hw]
    exact ih (hs.step c) hp.2

end Widens

namespace Token

theorem isDelimiter_of_isQuiet {c : Char} (h : Scan.isQuiet c = true) : isDelimiter c = false := by
  obtain ⟨-, -, -, marks⟩ := Scan.isQuiet_apart h
  simp only [List.mem_cons, List.not_mem_nil, or_false, not_or] at marks
  simp [isDelimiter, marks]

variable {s t : List Char} {d : Char}

theorem BeginsItem.widens (hw : Widens s t) (h : BeginsItem (s ++ [d])) : BeginsItem (t ++ [d]) := by
  cases hw with
  | nil => exact h
  | @cons c s t hw =>
    have next : (t ++ [d]).head? = (s ++ [d]).head? := by
      rw [List.head?_append, hw.head?, List.head?_append]
    exact ⟨h.1, h.2.1, fun hs => h.2.2 ⟨hs.1, next ▸ hs.2⟩⟩
  | @word c w s t hc =>
    have slash : c ≠ '/' := ne_of_class hc (by decide)
    exact ⟨h.1, h.2.1, fun hs => slash hs.1⟩

/-- An item is read as an item when it is widened. -/
theorem IsItem.widens (hw : Widens s t) (h : IsItem s d) : IsItem t d where
  begins := h.begins.widens hw
  passes := hw.passes (fun _ hc => isDelimiter_of_isQuiet hc) Scan.sound_start h.passes
  ends := by
    rw [hw.run Scan.sound_start]
    exact h.ends

theorem exists_upTo {c : Char} (h : BeginsItem (c :: s)) : ∃ t r,
    Scan.upTo true isDelimiter .start (c :: s) = (t, r) ∧ next c s = ofItem t r :=
  ⟨_, _, rfl, next_of_beginsItem h⟩

/-- Of what follows a token only the first character matters to it. -/
theorem tokens_next (c : Char) (s : List Char) {r : List Char} (hr : r.head? = (next c s).2.head?) :
    tokens ((next c s).1.toText ++ r) = (next c s).1 :: tokens r := by
  by_cases last : (next c s).2 = []
  · rw [last, List.head?_nil, List.head?_eq_none_iff] at hr
    have whole := next_append c s
    rw [last, List.append_nil] at whole
    rw [hr, List.append_nil, whole, tokens_cons, last]
  by_cases hc : isSpace c = true
  · rw [next_of_isSpace hc] at hr ⊢
    have stop : ∀ d ∈ r.head?, isSpace d = false := by
      intro d hd
      obtain ⟨t, ht⟩ := List.head?_eq_some_iff.mp (hr ▸ hd)
      exact head_dropWhile_of_cons ht
    have blanks : ∀ d ∈ s.takeWhile isSpace, isSpace d = true := fun d hd => List.mem_takeWhile_imp hd
    have drop : (s.takeWhile isSpace ++ r).dropWhile isSpace = r := by
      rw [List.dropWhile_append_of_pos blanks, dropWhile_eq_self_of_head stop]
    have take : (s.takeWhile isSpace ++ r).takeWhile isSpace = s.takeWhile isSpace := by
      have parts := List.takeWhile_append_dropWhile (p := isSpace) (l := s.takeWhile isSpace ++ r)
      rw [drop] at parts
      exact List.append_cancel_right parts
    rw [toText, List.cons_append, tokens_cons, next_of_isSpace hc, take, drop]
  by_cases hb : c = '}'
  · subst hb
    exact tokens_brace r
  by_cases hn : c = '/' ∧ s.head? = some '*'
  · obtain ⟨rfl, hs⟩ := hn
    obtain ⟨u, rfl⟩ := List.head?_eq_some_iff.mp hs
    have comment (v : List Char) : next '/' ('*' :: v) =
        (.comment ('/' :: '*' :: (commentRest false v).1), (commentRest false v).2) := by
      simp [next, isSpace]
    rw [comment] at last ⊢
    obtain ⟨d, v, hv⟩ := List.exists_cons_of_ne_nil last
    rw [toText, List.cons_append, List.cons_append, tokens_cons, comment, commentRest_of_cons hv]
  have begins : BeginsItem (c :: s) := ⟨by simpa using hc, hb, hn⟩
  obtain ⟨t, rest, hu, hi⟩ := exists_upTo begins
  rw [hi] at last hr ⊢
  cases rest with
  | nil => exact absurd rfl last
  | cons d v =>
    have item := isItem_upTo begins hu
    have delimiter := item.delimiter
    simp only [isDelimiter, Bool.or_eq_true, beq_iff_eq] at delimiter
    rcases delimiter with (rfl | rfl) | rfl
    · simpa [ofItem, toText] using item.tokens r
    · simpa [ofItem, toText] using item.tokens r
    · obtain ⟨v', rfl⟩ := List.head?_eq_some_iff.mp hr
      exact item.tokens v'

theorem isItem_of_next {c : Char} {p : List Char} (h : (next c s).1 = .opening p) : IsItem p '{' := by
  by_cases hc : isSpace c = true
  · rw [next_of_isSpace hc] at h
    cases h
  by_cases hb : c = '}'
  · subst hb
    cases h
  by_cases hn : c = '/' ∧ s.head? = some '*'
  · obtain ⟨rfl, hs⟩ := hn
    obtain ⟨u, rfl⟩ := List.head?_eq_some_iff.mp hs
    simp [next, isSpace] at h
  have begins : BeginsItem (c :: s) := ⟨by simpa using hc, hb, hn⟩
  obtain ⟨t, rest, hu, hi⟩ := exists_upTo begins
  rw [hi] at h
  unfold ofItem at h
  split at h
  · obtain rfl := Token.opening.inj h
    exact isItem_upTo begins hu
  · cases h
  · cases h

/-- A token with the text in front of its block exchanged. -/
def mapPrelude (g : List Char → List Char) : Token → Token
  | .opening p => .opening (g p)
  | t => t

theorem head?_mapPrelude {g : List Char → List Char} (hg : ∀ p, Widens p (g p)) (t : Token) :
    (t.mapPrelude g).toText.head? = t.toText.head? := by
  cases t with
  | opening p => rw [mapPrelude, toText, toText, List.head?_append, (hg p).head?, List.head?_append]
  | _ => rfl

end Token

theorem head?_flatMap_mapPrelude {g : List Char → List Char} (hg : ∀ p, Widens p (g p))
    (ts : List Token) : (ts.flatMap fun t => (t.mapPrelude g).toText).head? =
      (ts.flatMap Token.toText).head? := by
  induction ts with
  | nil => rfl
  | cons t ts ih =>
    rw [List.flatMap_cons, List.flatMap_cons, List.head?_append, List.head?_append, ih,
      Token.head?_mapPrelude hg]

/-- If the texts in front of blocks are widened, the other tokens are read as before and these as they
are widened. -/
theorem tokens_mapPrelude {g : List Char → List Char} (hg : ∀ p, Widens p (g p)) (s : List Char) :
    tokens ((tokens s).flatMap fun t => (t.mapPrelude g).toText) =
      (tokens s).map (Token.mapPrelude g) := by
  fun_induction tokens s with
  | case1 => exact tokens_nil
  | case2 c s ih =>
    have head := head?_flatMap_mapPrelude hg (tokens (Token.next c s).2)
    rw [flatMap_toText_tokens] at head
    rw [List.flatMap_cons, List.map_cons, ← ih]
    cases ht : (Token.next c s).1 with
    | opening p =>
      have item := (Token.isItem_of_next ht).widens (hg p)
      rw [Token.mapPrelude, Token.toText, List.append_assoc, List.singleton_append, item.tokens]
      rfl
    | _ =>
      have read := Token.tokens_next c s head
      rwa [ht] at read

end StyleExports.Stylesheet
