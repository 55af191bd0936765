import StyleExports.Proofs.EsModule.Open

namespace StyleExports.EsModule

open Text

/-- Blanks and comments; `feeds` tells whether a line feed stands among them. One inside a comment
between delimiters does not count. -/
inductive IsGap : Bool → List Char → Prop where
  | nil : IsGap false []
  | space {feeds : Bool} {c : Char} {g : List Char} (hc : isSpace c = true) (hn : c ≠ '\n')
      (hg : IsGap feeds g) : IsGap feeds (c :: g)
  | newline {feeds : Bool} {g : List Char} (hg : IsGap feeds g) : IsGap true ('\n' :: g)
  | lineComment {feeds : Bool} {a g : List Char} (ha : ∀ c ∈ a, c ≠ '\n')
      (hg : IsGap feeds ('\n' :: g)) : IsGap feeds ('/' :: '/' :: (a ++ '\n' :: g))
  | blockComment {feeds : Bool} {a g : List Char} (ha : Chunk.commentRest? false a = some (a, []))
      (hg : IsGap feeds g) : IsGap feeds ('/' :: '*' :: (a ++ g))

section

variable {feeds : Bool} {g t : List Char}

theorem isGap_space : IsGap false [' '] := .space (by decide) (by decide) .nil

theorem IsGap.head (h : IsGap feeds g) : ∀ c ∈ g.head?, isIdentChar c = false := by
  cases h with
  | nil => simp
  | space hc => exact forall_head?_cons (Scan.isIdentChar_of_isSpace hc)
  | newline => exact forall_head?_cons (by decide)
  | lineComment => exact forall_head?_cons (by decide)
  | blockComment => exact forall_head?_cons (by decide)

theorem IsGap.last (h : IsGap feeds g) : ∀ c ∈ g.getLast?, isIdentChar c = false := by
  have behind {a b : List Char} (ha : ∀ c ∈ a.getLast?, isIdentChar c = false)
      (hb : ∀ c ∈ b.getLast?, isIdentChar c = false) :
      ∀ c ∈ (a ++ b).getLast?, isIdentChar c = false := by
    intro c hc
    cases b with
    | nil => exact ha c (by simpa using hc)
    | cons d b =>
      rw [List.getLast?_append_of_ne_nil _ (List.cons_ne_nil d b)] at hc
      exact hb c hc
  induction h with
  | nil => simp
  | space hc _ _ ih =>
    refine behind (a := [_]) ?_ ih
    simpa using Scan.isIdentChar_of_isSpace hc
  | newline _ ih => exact behind (a := ['\n']) (by simp [show isIdentChar '\n' = false by decide]) ih
  | @lineComment _ a g _ _ ih =>
    intro c hc
    rw [← List.cons_append, ← List.cons_append, List.getLast?_append_of_ne_nil _ (by simp)] at hc
    exact ih c hc
  | @blockComment _ a g ha _ ih =>
    obtain ⟨⟨u, rfl⟩, -⟩ := Chunk.commentRest?_concat ha
    refine behind (a := '/' :: '*' :: (u ++ ['/'])) ?_ ih
    rw [← List.cons_append, ← List.cons_append]
    exact forall_getLast?_concat (by decide)

theorem startsStatement_of_gap (h : IsGap feeds g) (hs : startsStatement (g ++ t) = true) :
    startsStatement t = true := by
  have blank {c : Char} (hc : isSpace c = true) (s : List Char) :
      startsStatement (c :: s) = startsStatement s := by
    rw [startsStatement, List.dropWhile_cons_of_pos hc]
    rfl
  have comment {s : List Char} (hs : startsStatement ('/' :: s) = true) : False := by
    obtain ⟨c, r, hr, hc⟩ := exists_of_startsStatement hs
    rw [List.dropWhile_cons_of_neg (by decide)] at hr
    obtain rfl : '/' = c := (List.cons.inj hr).1
    exact absurd hc (by decide)
  induction h with
  | nil => exact hs
  | space hc _ _ ih => exact ih ((blank hc _).symm.trans hs)
  | newline _ ih => exact ih ((blank (by decide) _).symm.trans hs)
  | lineComment => exact (comment hs).elim
  | blockComment => exact (comment hs).elim

namespace Scan

variable {st u v : Scan} {c : Char} {s : List Char}

/-- A gap is read through, and no line feed in it ends the statement. -/
theorem reads_gap (h : IsGap feeds g) (hm : st.mode = .plain)
    (hn : feeds = true → st.brackets = [] → isComplete st.last = true →
      startsStatement t = false) :
    ∃ u, Reads st g t u ∧ u.mode = .plain ∧ u.brackets = st.brackets ∧ u.last = st.last := by
  induction h generalizing st with
  | nil => exact ⟨st, .nil, hm, rfl, rfl⟩
  | @space feeds c g hc hl _ ih =>
    obtain ⟨u, hu, same⟩ := @ih (st.push c) rfl hn
    exact ⟨u, .cons (step_space hm hc (fun h => absurd h hl) _) hu, same⟩
  | @newline feeds g hg ih =>
    have step : st.step '\n' (g ++ t) = .ok (.more (st.push '\n')) := by
      by_cases hb : st.brackets = []
      · simp only [Scan.step, hm]
        rw [plainStep_newline hb, if_neg]
        rintro ⟨hc, hs⟩
        exact absurd (startsStatement_of_gap hg hs) (by simp [hn rfl hb hc])
      · exact step_space hm (by decide) (fun _ => hb) _
    obtain ⟨u, hu, same⟩ := @ih (st.push '\n') rfl fun _ => hn rfl
    exact ⟨u, .cons step hu, same⟩
  | @lineComment feeds a g ha hg ih =>
    obtain ⟨v, hv, hvm, hvb, hvl⟩ := @reads_slashes st a ('\n' :: g ++ t) hm ha
    -- The line feed that ends the comment is read as it would be without the comment.
    obtain ⟨u, hu, hum, hub, hul⟩ := @ih { v with mode := .plain } rfl (by rwa [hvb, hvl])
    have line : Reads v ('\n' :: g) t u := by
      cases hu with
      | cons hs hr =>
        refine .cons ?_ hr
        simp only [Scan.step, hvm, if_true]
        exact hs
    exact ⟨u, hv.append line, hum, hub.trans hvb, hul.trans hvl⟩
  | @blockComment feeds a g ha hg ih =>
    obtain ⟨v, hv, hvm, hvb, hvl⟩ := @reads_slashStar st a (g ++ t) hm ha
    obtain ⟨u, hu, hum, hub, hul⟩ := ih hvm (by rwa [hvb, hvl])
    exact ⟨u, hv.append hu, hum, hub.trans hvb, hul.trans hvl⟩

/-- Outside everything, and behind a division sign that no comment begins with. -/
def settle (st : Scan) : Scan :=
  { st with mode := .plain, last := if st.mode = .slash false then some '/' else st.last }

theorem isComplete_settle (hm : IsOpenMode st.mode) : isComplete st.settle.last = st.breaks := by
  rcases hm with hm | hm | hm <;> simp [settle, breaks, hm, isComplete]

/-- A character that is neither of a comment nor of the flags of a regular expression is read as it is
outside everything. -/
theorem step_settle (hm : IsOpenMode st.mode) (hd : st.mode = .slash false → c ≠ '/' ∧ c ≠ '*')
    (hf : st.mode = .flags → isIdentChar c = false) (r : List Char) :
    st.step c r = st.settle.step c r := by
  rcases hm with hm | hm | hm
  · rw [settle, if_neg (by simp [hm]), ← hm]
  · obtain ⟨h1, h2⟩ := hd hm
    simp only [step, settle, hm, h1, h2, if_false, if_true, Bool.false_eq_true]
    rfl
  · simp only [step, settle, hm, hf hm, if_false, Bool.false_eq_true, reduceCtorEq]
    rfl

/-- A statement `w` stands behind a gap after a statement `st`. -/
structure Behind (g : List Char) (st w : Scan) : Prop where
  mode : w.mode = .plain
  brackets : w.brackets = st.brackets
  complete : isComplete w.last = st.breaks
  before : w.before = g.reverse ++ st.before

/-- Between two tokens, of which the second begins with `c`, stands a gap that keeps them apart. -/
structure Fits (st : Scan) (g : List Char) (c : Char) (s : List Char) : Prop where
  /-- A line feed in it does not end the statement: brackets are open, the line is not complete, or no
  keyword of a statement follows. -/
  gap : ∃ feeds, IsGap feeds g ∧ (feeds = true → st.brackets = [] → st.breaks = true →
    startsStatement (c :: s) = false)
  word : g = [] → isIdentChar c = true → ∀ d ∈ st.before.head?, isIdentChar d = false
  /-- Nothing makes a comment of a division sign. -/
  division : st.mode = .slash false → ∀ d ∈ (g ++ [c]).head?, d ≠ '/' ∧ d ≠ '*'
  flags : st.mode = .flags → ∀ d ∈ (g ++ [c]).head?, isIdentChar d = false
  /-- A slash divides, or begins a regular expression, as it does without the gap. -/
  slash : c = '/' → regexAllowed (g.reverse ++ st.before) = regexAllowed st.before

theorem Fits.head (h : Fits st g c s) {d : Char} (hd : d ∈ st.before.head?)
    (hi : isIdentChar d = true) : ∀ e ∈ (g ++ c :: s).head?, isIdentChar e = false := by
  intro e he
  cases g with
  | nil =>
    obtain rfl := Option.some.inj he
    rw [Bool.eq_false_iff]
    intro hc
    simp [h.word rfl hc d hd] at hi
  | cons a g =>
    obtain ⟨feeds, hg, -⟩ := h.gap
    exact hg.head e he

/-- What keeps two tokens apart leads from the first to the second. -/
theorem Fits.exists_behind (h : Fits st g c s) (hm : IsOpenMode st.mode) :
    ∃ w, Behind g st w ∧ st.closes (g ++ c :: s) = w.closes (c :: s) := by
  obtain ⟨feeds, hg, hn⟩ := h.gap
  obtain ⟨w, hw, hwm, hwb, hwl⟩ := @reads_gap feeds g (c :: s) st.settle hg rfl
    (fun hf hb hc => hn hf hb ((isComplete_settle hm).symm.trans hc))
  refine ⟨w, ⟨hwm, hwb, ?_, hw.before⟩, ?_⟩
  · rw [hwl, isComplete_settle hm]
  · rw [← hw.closes]
    obtain ⟨d, x, hdx⟩ : ∃ d x, g ++ c :: s = d :: x := List.exists_cons_of_ne_nil (by simp)
    have head : d ∈ (g ++ [c]).head? := by
      cases g with
      | nil => exact congrArg List.head? hdx
      | cons => exact congrArg List.head? hdx
    rw [hdx, closes, closes, step_settle hm (fun hd => h.division hd d head) fun hf =>
      h.flags hf d head]

theorem regexAllowed_space (hc : isSpace c = true) (s : List Char) :
    regexAllowed (c :: s) = regexAllowed s := by
  rw [regexAllowed, List.dropWhile_cons_of_pos hc, ← regexAllowed]

/-- A single blank keeps any two tokens apart. -/
theorem fits_space (st : Scan) (c : Char) (s : List Char) : Fits st [' '] c s where
  gap := ⟨false, isGap_space, by simp⟩
  word := by simp
  division := fun _ => forall_head?_cons (by decide)
  flags := fun _ => forall_head?_cons (by decide)
  slash := fun _ => regexAllowed_space (by decide) st.before

theorem step_settle_space (hm : IsOpenMode st.mode) (r : List Char) :
    st.step ' ' r = .ok (.more (st.settle.push ' ')) := by
  rw [step_settle hm (fun _ => by decide) (fun _ => by decide)]
  exact step_space rfl (by decide) (fun h => absurd h (by decide)) r

theorem exists_behind_space (hm : IsOpenMode st.mode) (h : Reads st (' ' :: s) t u) :
    ∃ w, Behind [' '] st w ∧ Reads w s t u := by
  cases h with
  | cons hs hr =>
    rw [step_settle_space hm] at hs
    cases hs
    exact ⟨st.settle.push ' ', ⟨rfl, rfl, isComplete_settle hm, rfl⟩, hr⟩

/-- What keeps tokens apart does so in statements alike that end with the same character. -/
theorem Fits.congr (h : Fits st g c s) (ha : st.Alike v) (hh : st.before.head? = v.before.head?) :
    Fits v g c s where
  gap := by
    rw [← ha.brackets, ← ha.breaks]
    exact h.gap
  word := hh ▸ h.word
  division := ha.mode ▸ h.division
  flags := ha.mode ▸ h.flags
  slash := fun hc => by
    have whole := ha.regex []
    simp only [List.nil_append] at whole
    rw [← ha.regex, ← whole, h.slash hc]

/-- Behind a gap a statement goes on as it does behind a single blank. -/
theorem Fits.stepAlike {w x : Scan} (h : Fits v g c s) (hc : isSpace c = false) (ha : st.Alike v)
    (hw : Behind [' '] st w) (hx : Behind g v x) (r : List Char) :
    StepAlike (w.step c r) (x.step c r) := by
  refine step_alike r ?_ ?_ (hw.mode.trans hx.mode.symm) ?_ fun a => ?_
  · rw [hw.brackets, hx.brackets, ha.brackets]
  · rw [hw.complete, hx.complete, ha.breaks]
  · intro hs
    rw [hw.before, hx.before, h.slash hs]
    exact (regexAllowed_space (by decide) _).trans (ha.regex [])
  · apply regexAllowed_append_cons a hc
    · rw [hw.before]
      exact fun _ => forall_head?_cons (by decide)
    · intro hi d hd
      rw [hx.before] at hd
      cases g with
      | nil => exact h.word rfl hi d hd
      | cons e g =>
        obtain ⟨feeds, hg, -⟩ := h.gap
        rw [List.head?_append_of_ne_nil _ (by simp), List.head?_reverse] at hd
        exact hg.last d hd

end Scan

end

/-- A token of a statement with the gap in front of it. -/
structure Piece where
  gap : List Char
  token : List Char

namespace Piece

def text (ps : List Piece) : List Char := ps.flatMap fun p => p.gap ++ p.token

def spaced (p : Piece) : Piece := ⟨[' '], p.token⟩

theorem text_cons (p : Piece) (ps : List Piece) : text (p :: ps) = p.gap ++ (p.token ++ text ps) := by
  rw [text, List.flatMap_cons, List.append_assoc]
  rfl

theorem text_append (ps qs : List Piece) : text (ps ++ qs) = text ps ++ text qs :=
  List.flatMap_append

def IsApart (s t : List Char) : Prop :=
  ∀ c ∈ s.getLast?, isIdentChar c = true → ∀ d ∈ t.head?, isIdentChar d = false

/-- No word reaches from one token into the next. -/
def AreApart : List Piece → Prop
  | [] => True
  | p :: ps => IsApart p.token (text ps) ∧ AreApart ps

end Piece

open Piece

/-- A statement that stands so far is continued by tokens, of which the last is the semicolon that closes
it. With single blanks the automaton reads each of them whole, and in their layout what stands between two
of them keeps them apart. -/
inductive Laid : Scan → List Piece → Prop where
  | last {st : Scan} {g : List Char} (hm : Scan.IsOpenMode st.mode) (hb : st.brackets = [])
      (hf : Scan.Fits st g ';' []) : Laid st [⟨g, [';']⟩]
  | cons {st u : Scan} {g s : List Char} {c : Char} {ps : List Piece}
      (hm : Scan.IsOpenMode st.mode) (hc : isSpace c = false) (hf : Scan.Fits st g c (s ++ text ps))
      (reads : ∀ t, Scan.Reads st (' ' :: c :: s) t u) (rest : Laid u ps) :
      Laid st (⟨g, c :: s⟩ :: ps)

namespace Laid

variable {st v : Scan} {ps : List Piece} {p : Piece}

theorem spaced (h : Laid st ps) : Laid st (ps.map Piece.spaced) := by
  induction h with
  | last hm hb _ => exact .last hm hb (Scan.fits_space ..)
  | cons hm hc _ reads _ ih => exact .cons hm hc (Scan.fits_space ..) reads ih

/-- Every layout is read to its end. -/
theorem closes (h : Laid st ps) (ha : st.Alike v) (hh : st.before.head? = v.before.head?) :
    v.closes (text ps) = true := by
  induction h generalizing v with
  | last hm hb hf =>
    obtain ⟨x, hx, hcl⟩ := (hf.congr ha hh).exists_behind (ha.mode ▸ hm)
    change v.closes (_ ++ [';'] ++ []) = true
    rw [List.append_nil, hcl, Scan.closes_semicolon_iff]
    exact ⟨hx.brackets.trans (ha.brackets ▸ hb), .inl hx.mode⟩
  | @cons st u g s c ps hm hc hf reads _ ih =>
    have fits := hf.congr ha hh
    obtain ⟨x, hx, hcl⟩ := fits.exists_behind (ha.mode ▸ hm)
    obtain ⟨w, hw, hr⟩ := Scan.exists_behind_space hm (reads (text ps))
    obtain ⟨y, hy, hu⟩ := hr.congr_cons (fits.stepAlike hc ha hw hx)
    rw [text_cons, List.cons_append, hcl, ← List.cons_append, hy.closes]
    refine ih hu ?_
    rw [hr.before, hy.before, List.head?_append_of_ne_nil _ (by simp),
      List.head?_append_of_ne_nil _ (by simp)]

theorem head (h : Laid st ps) : ∀ d ∈ st.before.head?, isIdentChar d = true →
    ∀ c ∈ (text ps).head?, isIdentChar c = false := by
  intro d hd hi c hc
  cases h with
  | last _ _ hf => exact hf.head hd hi c (by simpa [text] using hc)
  | cons _ _ hf => exact hf.head hd hi c (by rwa [text_cons] at hc)

theorem areApart (h : Laid st ps) : AreApart ps := by
  induction h with
  | last => exact ⟨fun _ _ _ => by simp [text], trivial⟩
  | @cons st u g s c ps hm _ _ reads rest ih =>
    refine ⟨fun d hd hi => rest.head d ?_ hi, ih⟩
    rw [(reads []).before, ← List.singleton_append, List.reverse_append, List.append_assoc,
      List.head?_append_of_ne_nil _ (by simp), List.head?_reverse]
    exact hd

end Laid

end StyleExports.EsModule
