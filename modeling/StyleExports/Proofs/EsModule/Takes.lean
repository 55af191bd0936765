import StyleExports.Proofs.EsModule.Literal
import StyleExports.Proofs.EsModule.Reads

namespace StyleExports.EsModule.Scan

open Text

theorem Reads.det {st u v : Scan} {s t : List Char} (h : Reads st s t u) (k : Reads st s t v) :
    u = v := by
  induction h with
  | nil =>
    cases k
    rfl
  | cons h _ ih =>
    cases k with
    | cons k kr =>
      rw [h] at k
      cases k
      exact ih kr

/-- Wherever the automaton stands as `P` says, it reads a text through and stands as `Q` says. -/
def Takes (P : Scan → Prop) (s : List Char) (Q : Scan → Prop) : Prop :=
  ∀ (st : Scan) (t : List Char), P st → ∃ u, Reads st s t u ∧ Q u

/-- Nothing protects the next character, and certain brackets are open. -/
structure Settled (bs : List Char) (st : Scan) : Prop where
  mode : st.mode = .plain
  brackets : st.brackets = bs

section

variable {P Q R : Scan → Prop} {bs s t : List Char} {c : Char}

theorem Takes.nil : Takes P [] P := fun st _ h => ⟨st, .nil, h⟩

theorem Takes.append (hs : Takes P s Q) (ht : Takes Q t R) : Takes P (s ++ t) R := by
  intro st w h
  obtain ⟨u, hu, hq⟩ := hs st (t ++ w) h
  obtain ⟨v, hv, hr⟩ := ht u w hq
  exact ⟨v, hu.append hv, hr⟩

theorem Takes.imp {P' Q' : Scan → Prop} (h : Takes P s Q) (hp : ∀ st, P' st → P st)
    (hq : ∀ st, Q st → Q' st) : Takes P' s Q' := by
  intro st w hst
  obtain ⟨u, hu, hQ⟩ := h st w (hp st hst)
  exact ⟨u, hu, hq u hQ⟩

theorem Ready.settled {st : Scan} (h : Ready bs st) : Settled bs st := ⟨h.mode, h.brackets⟩

theorem takes_of_step (h : ∀ st r, P st → ∃ u, st.step c r = .ok (.more u) ∧ Q u) :
    Takes P [c] Q := by
  intro st t hp
  obtain ⟨u, hs, hq⟩ := h st t hp
  exact ⟨u, .cons hs .nil, hq⟩

/-- A character that changes nothing where so many brackets are open. -/
def isSoft (bs : List Char) (c : Char) : Prop :=
  isIdle c ∨ isSpace c ∧ (c = '\n' → bs ≠ [])

theorem takes_soft (hs : ∀ c ∈ s, isSoft bs c) : Takes (Settled bs) s (Settled bs) := by
  induction s with
  | nil => exact .nil
  | cons c s ih =>
    have one : Takes (Settled bs) [c] (Settled bs) := by
      apply takes_of_step
      intro st r h
      rcases hs c (by simp) with hi | ⟨hc, hn⟩
      · exact ⟨_, step_idle h.mode hi r, rfl, h.brackets⟩
      · exact ⟨_, step_space h.mode hc (fun he => h.brackets ▸ hn he) r, rfl, h.brackets⟩
    exact one.append (ih fun d hd => hs d (by simp [hd]))

/-- Words and blanks on one line are read through, and the line can end after them. -/
theorem takes_words (hs : ∀ c ∈ s, isSoft bs c ∧ (isIdentChar c = true ∨ isBlank c = true)) :
    Takes (Ready bs) s (Ready bs) := by
  intro st t h
  obtain ⟨u, hu, -⟩ := takes_soft (fun c hc => (hs c hc).1) st t h.settled
  exact ⟨u, hu, hu.ready h fun c hc => (hs c hc).2⟩

def bracketPairs : List (Char × Char) := [('(', ')'), ('[', ']'), ('{', '}')]

theorem mem_bracketPairs {o e : Char} : (o, e) ∈ bracketPairs ↔
    (o = '(' ∧ e = ')') ∨ (o = '[' ∧ e = ']') ∨ (o = '{' ∧ e = '}') := by
  simp [bracketPairs]

theorem step_opening {st : Scan} {o e : Char} (ho : (o, e) ∈ bracketPairs) (hm : st.mode = .plain)
    (r : List Char) : st.step o r =
      .ok (.more { st.pushLast o with brackets := o :: st.brackets }) := by
  rcases mem_bracketPairs.mp ho with ⟨rfl, rfl⟩ | ⟨rfl, rfl⟩ | ⟨rfl, rfl⟩
  all_goals simp [step, hm, plainStep, Literal.open?]

theorem step_closing {st : Scan} {o e : Char} (ho : (o, e) ∈ bracketPairs) (hm : st.mode = .plain)
    (hb : st.brackets = o :: bs) (r : List Char) :
    st.step e r = .ok (.more { st.pushLast e with brackets := bs }) := by
  rcases mem_bracketPairs.mp ho with ⟨rfl, rfl⟩ | ⟨rfl, rfl⟩ | ⟨rfl, rfl⟩
  all_goals simp [step, hm, plainStep, Literal.open?, hb, opening]

theorem step_brace {st : Scan} (hm : st.mode = .plain) (r : List Char) : st.step '{' r =
    .ok (.more { st.pushLast '{' with brackets := '{' :: st.brackets }) :=
  step_opening (e := '}') (by decide) hm r

theorem takes_opening {o e : Char} (ho : (o, e) ∈ bracketPairs) :
    Takes (Settled bs) [o] (Settled (o :: bs)) :=
  takes_of_step fun _ r h => ⟨_, step_opening ho h.mode r, rfl, congrArg (o :: ·) h.brackets⟩

theorem takes_closing {o e : Char} (ho : (o, e) ∈ bracketPairs) :
    Takes (Settled (o :: bs)) [e] (Ready bs) := by
  refine takes_of_step fun st r h => ⟨_, step_closing ho h.mode h.brackets r, rfl, rfl, ?_⟩
  rcases mem_bracketPairs.mp ho with ⟨-, rfl⟩ | ⟨-, rfl⟩ | ⟨-, rfl⟩
  all_goals rfl

theorem takes_group {o e : Char} (ho : (o, e) ∈ bracketPairs)
    (hs : Takes (Settled (o :: bs)) s (Settled (o :: bs))) :
    Takes (Settled bs) (o :: (s ++ [e])) (Ready bs) :=
  (takes_opening ho).append (hs.append (takes_closing ho))

theorem takes_brace : Takes (Settled bs) ['{'] (Settled ('{' :: bs)) :=
  takes_opening (e := '}') (by decide)

theorem takes_braces (hs : Takes (Settled ('{' :: bs)) s (Settled ('{' :: bs))) :
    Takes (Settled bs) ('{' :: (s ++ ['}'])) (Ready bs) :=
  takes_group (by decide) hs

/-- Inside a literal that a character opened. -/
structure Within (bs : List Char) (opening : Char) (l : Literal) (st : Scan) : Prop where
  mode : st.mode = .literal opening l
  brackets : st.brackets = bs

theorem takes_literal {opening : Char} {l k : Literal} (h : l.Reads s k) :
    Takes (Within bs opening l) s (Within bs opening k) := by
  induction h with
  | nil => exact .nil
  | @cons l j k c s h _ ih =>
    have one : Takes (Within bs opening l) [c] (Within bs opening j) := by
      refine takes_of_step fun st r hst =>
        ⟨{ st.push c with mode := .literal opening j }, ?_, rfl, hst.brackets⟩
      simp only [step, hst.mode, h]
    exact one.append ih

theorem takes_quoted {q : Char} {l k : Literal} (ho : Literal.open? c = some l) (hs : l.Reads s k)
    (hq : k.step q = .closed) : Takes (Settled bs) (c :: (s ++ [q])) (Settled bs) := by
  have opens : Takes (Settled bs) [c] (Within bs c l) := by
    refine takes_of_step fun st r h => ⟨st.begin c (.literal c l), ?_, rfl, h.brackets⟩
    simp [step, h.mode, plainStep, ho]
  have closing : Takes (Within bs c k) [q] (Settled bs) := by
    refine takes_of_step fun st r h => ⟨{ st.push q with last := some c }, ?_, rfl, h.brackets⟩
    simp only [step, h.mode, hq]
  exact opens.append ((takes_literal hs).append closing)

theorem takes_encode (x : List Char) : Takes (Settled bs) (Quoted.encode x) (Settled bs) := by
  obtain ⟨w, hw, hr⟩ := Literal.exists_reads_encodeBody x
  rw [Quoted.encode, hw]
  exact takes_quoted rfl hr Literal.step_string_closing

theorem closes_of_takes (h : Takes (Settled []) s (Settled [])) :
    start.closes (s ++ [';']) = true := by
  obtain ⟨u, hu, hs⟩ := h start [';'] ⟨rfl, rfl⟩
  rw [hu.closes, closes_semicolon_iff]
  exact ⟨hs.brackets, .inl hs.mode⟩

end

end StyleExports.EsModule.Scan
