import StyleExports.Proofs.Text.Trim
import StyleExports.Stylesheet.Token

namespace StyleExports.Stylesheet

open Text

namespace Scan

variable {item : Bool} {isEnd : Char → Bool} {st : Scan} {s t : List Char} {c : Char}

/-- Nothing in a text ends the reading that begins in front of it. -/
def Passes (item : Bool) (isEnd : Char → Bool) : Scan → List Char → Prop
  | _, [] => True
  | st, c :: s => st.endsAt isEnd c = false ∧ Passes item isEnd (st.step item c) s

theorem passes_append : Passes item isEnd st (s ++ t) ↔
    Passes item isEnd st s ∧ Passes item isEnd (run item st s) t := by
  induction s generalizing st with
  | nil => simp [Passes, run]
  | cons c s ih =>
    rw [List.cons_append, Passes, Passes, ih, and_assoc]
    rfl

theorem passes_upTo (item : Bool) (isEnd : Char → Bool) (st : Scan) (s : List Char) :
    Passes item isEnd st (upTo item isEnd st s).1 := by
  induction s generalizing st with
  | nil => trivial
  | cons c s ih =>
    unfold upTo
    split
    · trivial
    · rename_i h
      exact ⟨Bool.eq_false_iff.mpr h, ih (st.step item c)⟩

theorem passes_of_all (h : ∀ c ∈ s, isEnd c = false) : Passes item isEnd st s := by
  induction s generalizing st with
  | nil => trivial
  | cons c s ih =>
    have hc : st.endsAt isEnd c = false := by simp [endsAt, h c List.mem_cons_self]
    exact ⟨hc, ih fun d hd => h d (List.mem_cons_of_mem c hd)⟩

theorem upTo_append_of_passes (h : Passes item isEnd st s) (t : List Char) :
    upTo item isEnd st (s ++ t) =
      (s ++ (upTo item isEnd (run item st s) t).1, (upTo item isEnd (run item st s) t).2) := by
  induction s generalizing st with
  | nil => rfl
  | cons c s ih =>
    obtain ⟨hc, hs⟩ := h
    rw [List.cons_append, upTo, if_neg (by simp [hc]), ih hs]
    rfl

theorem upTo_cons_of_endsAt (h : st.endsAt isEnd c = true) (s : List Char) :
    upTo item isEnd st (c :: s) = ([], c :: s) := by
  rw [upTo, if_pos h]

theorem upTo_cut (hp : Passes item isEnd st s) (hc : (run item st s).endsAt isEnd c = true)
    (t : List Char) : upTo item isEnd st (s ++ c :: t) = (s, c :: t) := by
  rw [upTo_append_of_passes hp, upTo_cons_of_endsAt hc, List.append_nil]

theorem passes_or_cut (item : Bool) (isEnd : Char → Bool) (st : Scan) (s : List Char) :
    Passes item isEnd st s ∨ ∃ t c u, s = t ++ c :: u ∧ Passes item isEnd st t ∧
      (run item st t).endsAt isEnd c = true := by
  have passes := passes_upTo item isEnd st s
  have whole := upTo_append item isEnd st s
  cases hu : (upTo item isEnd st s).2 with
  | nil =>
    rw [hu, List.append_nil] at whole
    rw [whole] at passes
    exact .inl passes
  | cons c u =>
    rw [hu] at whole
    exact .inr ⟨_, c, u, whole.symm, passes, endsAt_of_upTo hu⟩

theorem upTo_of_passes (h : Passes item isEnd st s) : upTo item isEnd st s = (s, []) := by
  have all := upTo_append_of_passes h []
  simpa [upTo] using all

/-- Outside brackets and all that protects, a blank changes nothing. -/
theorem endsAt_brace_step (h : st.endsAt isEnd '}' = true) (hc : isSpace c = true) :
    (st.step item c).endsAt isEnd '}' = true := by
  simp only [endsAt, Bool.and_eq_true, beq_iff_eq] at h ⊢
  obtain ⟨⟨he, hd⟩, hf⟩ := h
  obtain ⟨depth, mode⟩ := st
  obtain rfl : depth = 0 := hd
  have plain : (plainStep item ⟨0, mode⟩ c) = ⟨0, .plain⟩ := by
    simp only [isSpace, Bool.or_eq_true, beq_iff_eq] at hc
    rcases hc with (((rfl | rfl) | rfl) | rfl) | rfl <;> simp [plainStep, isQuote]
  have free : (⟨0, mode⟩ : Scan).isFree c = true := by
    cases mode with
    | plain => rfl
    | slash =>
      have : c ≠ '*' := by rintro rfl; exact absurd hc (by decide)
      simpa [isFree] using this
    | hash =>
      have : c ≠ '{' := by rintro rfl; exact absurd hc (by decide)
      simpa [isFree] using this
    | _ => simp [isFree] at hf
  rw [step, if_pos free, plain]
  exact ⟨⟨he, rfl⟩, rfl⟩

theorem endsAt_brace_run (h : st.endsAt isEnd '}' = true) (hs : ∀ c ∈ s, isSpace c) :
    (run item st s).endsAt isEnd '}' = true := by
  induction s generalizing st with
  | nil => exact h
  | cons c s ih =>
    have next : (st.step item c).endsAt isEnd '}' = true :=
      endsAt_brace_step h (hs c List.mem_cons_self)
    exact ih next fun d hd => hs d (List.mem_cons_of_mem c hd)

end Scan

namespace Token

/-- Whether an item may begin a text: no blank, no brace that closes, no comment. -/
def BeginsItem : List Char → Prop
  | [] => False
  | c :: s => isSpace c = false ∧ c ≠ '}' ∧ ¬ (c = '/' ∧ s.head? = some '*')

theorem next_of_isSpace {c : Char} (h : isSpace c = true) (s : List Char) :
    next c s = (.blank (c :: s.takeWhile isSpace), s.dropWhile isSpace) := by
  unfold next
  rw [if_pos h]

theorem next_of_beginsItem {c : Char} {s : List Char} (h : BeginsItem (c :: s)) :
    next c s = ofItem (Scan.upTo true isDelimiter .start (c :: s)).1
      (Scan.upTo true isDelimiter .start (c :: s)).2 := by
  obtain ⟨hc, hb, hn⟩ := h
  unfold next
  rw [if_neg (by simp [hc]), if_neg hb]
  split
  · exact absurd ⟨rfl, rfl⟩ hn
  · rfl

/-- The text of an item in front of the delimiter that ends it. -/
structure IsItem (t : List Char) (d : Char) : Prop where
  begins : BeginsItem (t ++ [d])
  passes : Scan.Passes true isDelimiter .start t
  ends : (Scan.run true .start t).endsAt isDelimiter d = true

variable {t b : List Char} {d : Char}

theorem IsItem.delimiter (h : IsItem t d) : isDelimiter d = true := by
  have hd := h.ends
  simp only [Scan.endsAt, Bool.and_eq_true] at hd
  exact hd.1.1

theorem IsItem.append (h : IsItem t d) (s : List Char) : BeginsItem (t ++ d :: s) := by
  have hb := h.begins
  match t with
  | [] =>
    have slash : d ≠ '/' := by
      intro hd
      have := hd ▸ h.delimiter
      exact absurd this (by decide)
    exact ⟨hb.1, hb.2.1, fun hs => slash hs.1⟩
  | [c] => exact hb
  | c :: e :: t => exact hb

theorem IsItem.tokens (h : IsItem t d) (s : List Char) :
    tokens (t ++ d :: s) = (ofItem t (d :: s)).1 :: tokens (ofItem t (d :: s)).2 := by
  have cut := Scan.upTo_cut h.passes h.ends s
  have begins := h.append s
  obtain ⟨c, u, hu⟩ := List.exists_cons_of_ne_nil (l := t ++ d :: s) (by simp)
  rw [hu] at cut begins ⊢
  rw [tokens_cons, next_of_beginsItem begins, cut]

/-- The brace that cuts an item short may stand behind blanks. -/
theorem IsItem.blanks (h : IsItem t '}') (hb : ∀ c ∈ b, isSpace c) : IsItem (t ++ b) '}' where
  begins := by
    match t, h.begins with
    | [], hn => exact absurd rfl hn.2.1
    | [c], hn =>
      refine ⟨hn.1, hn.2.1, fun hs => ?_⟩
      cases b with
      | nil => exact hn.2.2 hs
      | cons e b =>
        obtain rfl : e = '*' := Option.some.inj hs.2
        exact absurd (hb '*' List.mem_cons_self) (by decide)
    | c :: e :: t, hn => exact hn
  passes := by
    refine Scan.passes_append.mpr ⟨h.passes, Scan.passes_of_all fun c hc => ?_⟩
    have hs := hb c hc
    simp only [isSpace, Bool.or_eq_true, beq_iff_eq] at hs
    rcases hs with (((rfl | rfl) | rfl) | rfl) | rfl <;> rfl
  ends := by
    rw [Scan.run_append]
    exact Scan.endsAt_brace_run h.ends hb

/-- What a token means: a blank nothing, and blanks at the end of an item that a brace cuts short do
not belong to it. -/
def tidy? : Token → Option Token
  | .blank _ => none
  | .statement t false => some (.statement (dropEndWhile isSpace t) false)
  | t => some t

end Token

def tidy (ts : List Token) : List Token := ts.filterMap Token.tidy?

theorem tidy_cons (t : Token) (ts : List Token) : tidy (t :: ts) = t.tidy?.toList ++ tidy ts := by
  rw [tidy, List.filterMap_cons]
  cases t.tidy? <;> rfl

theorem tidy_tokens_dropWhile (s : List Char) :
    tidy (tokens (s.dropWhile isSpace)) = tidy (tokens s) := by
  cases s with
  | nil => rfl
  | cons c s =>
    by_cases hc : isSpace c = true
    · rw [List.dropWhile_cons_of_pos hc, tokens_cons, tidy_cons, Token.next_of_isSpace hc]
      rfl
    · rw [List.dropWhile_cons_of_neg hc]

theorem tidy_tokens_blanks {b : List Char} (hb : ∀ c ∈ b, isSpace c) (s : List Char) :
    tidy (tokens (b ++ s)) = tidy (tokens s) := by
  rw [← tidy_tokens_dropWhile, List.dropWhile_append_of_pos hb, tidy_tokens_dropWhile]

theorem tokens_brace (s : List Char) : tokens ('}' :: s) = .closing :: tokens s := by
  rw [tokens_cons]
  rfl

namespace Token

variable {t b : List Char} {d : Char} {s : List Char}

/-- A token that is read the same whatever follows it. -/
def Settled (t : Token) : Prop :=
  ∀ s, tidy (tokens (t.toText ++ s)) = t.tidy?.toList ++ tidy (tokens s)

/-- An item that is read the same in front of every closing brace, blanks or none between them. -/
def CutShort (t : Token) : Prop :=
  ∀ b s, (∀ c ∈ b, isSpace c) →
    tidy (tokens (t.toText ++ (b ++ '}' :: s))) = t.tidy?.toList ++ .closing :: tidy (tokens s)

theorem settled_blank (hb : ∀ c ∈ b, isSpace c) : (Token.blank b).Settled :=
  fun s => tidy_tokens_blanks hb s

theorem settled_closing : Token.closing.Settled := by
  intro s
  rw [toText, List.singleton_append, tokens_brace, tidy_cons]

theorem settled_statement (h : IsItem t ';') : (Token.statement t true).Settled := by
  intro s
  rw [toText, if_pos rfl, List.append_assoc, List.singleton_append, h.tokens, tidy_cons]
  rfl

theorem settled_opening (h : IsItem t '{') : (Token.opening t).Settled := by
  intro s
  rw [toText, List.append_assoc, List.singleton_append, h.tokens, tidy_cons]
  rfl

theorem cutShort_statement (h : IsItem t '}') : (Token.statement t false).CutShort := by
  intro b s hb
  have read := (h.blanks hb).tokens s
  have cut : ofItem (t ++ b) ('}' :: s) = (.statement (t ++ b) false, '}' :: s) := rfl
  have same : (Token.statement (t ++ b) false).tidy? = (Token.statement t false).tidy? := by
    rw [tidy?, tidy?, dropEndWhile_append_of_all t hb]
  rw [toText, if_neg (by simp), ← List.append_assoc, read, cut, tokens_brace, tidy_cons, tidy_cons,
    same]
  rfl

/-- A comment that ends before the end of the text ends there whatever follows. -/
theorem commentRest_of_cons {star : Bool} {c : Char} {r : List Char}
    (h : (commentRest star s).2 = c :: r) (u : List Char) :
    commentRest star ((commentRest star s).1 ++ u) = ((commentRest star s).1, u) := by
  induction s generalizing star with
  | nil => simp [commentRest] at h
  | cons e s ih =>
    by_cases he : (star && e == '/') = true
    · rw [commentRest, if_pos he, List.singleton_append, commentRest, if_pos he]
    · rw [commentRest, if_neg he] at h ⊢
      rw [List.cons_append, commentRest, if_neg he, ih h]

theorem settled_comment {c : Char} {r : List Char} (h : (commentRest false s).2 = c :: r) :
    (Token.comment ('/' :: '*' :: (commentRest false s).1)).Settled := by
  intro u
  have read : next '/' ('*' :: ((commentRest false s).1 ++ u)) =
      (.comment ('/' :: '*' :: (commentRest false s).1), u) := by
    simp [next, isSpace, commentRest_of_cons h]
  rw [toText, List.cons_append, List.cons_append, tokens_cons, read, tidy_cons]

theorem isItem_upTo {u r : List Char} (hb : BeginsItem s)
    (h : Scan.upTo true Token.isDelimiter .start s = (u, d :: r)) : IsItem u d where
  begins := by
    have whole := Scan.upTo_append true isDelimiter .start s
    rw [h] at whole
    subst whole
    match u with
    | [] => exact ⟨hb.1, hb.2.1, by simp⟩
    | [c] => exact hb
    | c :: e :: u => exact hb
  passes := by
    have hp := Scan.passes_upTo true isDelimiter .start s
    rwa [h] at hp
  ends := by
    have he := Scan.endsAt_of_upTo (congrArg Prod.snd h)
    rwa [h] at he

end Token

def closesNext : List Token → Bool
  | .blank b :: ts => b.all isSpace && closesNext ts
  | .closing :: _ => true
  | _ => false

theorem exists_of_closesNext {ts : List Token} (h : closesNext ts = true) :
    ∃ b us, (∀ c ∈ b, isSpace c) ∧ ts.flatMap Token.toText = b ++ '}' :: us.flatMap Token.toText ∧
      tidy ts = .closing :: tidy us := by
  induction ts with
  | nil => simp [closesNext] at h
  | cons t ts ih =>
    cases t with
    | blank w =>
      rw [closesNext, Bool.and_eq_true, List.all_eq_true] at h
      obtain ⟨b, us, hb, ht, hu⟩ := ih h.2
      refine ⟨w ++ b, us, fun c hc => ?_, ?_, hu⟩
      · exact (List.mem_append.mp hc).elim (h.1 c) (hb c)
      · rw [List.flatMap_cons, ht, List.append_assoc]
        rfl
    | closing => exact ⟨[], ts, by simp, rfl, rfl⟩
    | _ => simp [closesNext] at h

/-- Whether a token is read as itself in front of others: always, or because a brace comes next, or
because nothing does. -/
def Token.Precedes (t : Token) (ts : List Token) : Prop :=
  t.Settled ∨ t.CutShort ∧ closesNext ts = true ∨ tokens t.toText = [t] ∧ ts = []

/-- Every token is read as itself where it stands. -/
def Legible : List Token → Prop
  | [] => True
  | t :: ts => t.Precedes ts ∧ Legible ts

theorem tidy_tokens_of_legible {ts : List Token} (h : Legible ts) :
    tidy (tokens (ts.flatMap Token.toText)) = tidy ts := by
  induction ts with
  | nil => rw [List.flatMap_nil, tokens_nil]
  | cons t ts ih =>
    obtain ⟨ht, hs⟩ := h
    have rest := ih hs
    rw [List.flatMap_cons, tidy_cons]
    rcases ht with settled | ⟨cut, next⟩ | ⟨last, rfl⟩
    · rw [settled, rest]
    · obtain ⟨b, us, hb, text, hu⟩ := exists_of_closesNext next
      have brace : tidy (tokens (b ++ '}' :: us.flatMap Token.toText)) =
          .closing :: tidy (tokens (us.flatMap Token.toText)) := by
        rw [tidy_tokens_blanks hb, tokens_brace, tidy_cons]
        rfl
      rw [text, brace, hu] at rest
      rw [text, cut b _ hb, rest, hu]
    · rw [List.flatMap_nil, List.append_nil, last, tidy_cons]

/-- An item may stand in front of what follows the delimiter that ends it. -/
theorem Token.precedes_ofItem {t : List Char} {d : Char} (h : IsItem t d) (r : List Char) :
    (ofItem t (d :: r)).1.Precedes (tokens (ofItem t (d :: r)).2) := by
  have delimiter := h.delimiter
  simp only [isDelimiter, Bool.or_eq_true, beq_iff_eq] at delimiter
  rcases delimiter with (rfl | rfl) | rfl
  · exact .inl (settled_statement h)
  · exact .inl (settled_opening h)
  · have brace : (ofItem t ('}' :: r)).2 = '}' :: r := rfl
    refine .inr (.inl ⟨cutShort_statement h, ?_⟩)
    rw [brace, tokens_brace]
    rfl

/-- What is read from a text can be read again. -/
theorem Token.precedes_next (c : Char) (s : List Char) :
    (next c s).1.Precedes (tokens (next c s).2) := by
  by_cases last : (next c s).2 = []
  · refine .inr (.inr ?_)
    have whole := next_append c s
    rw [last, List.append_nil] at whole
    rw [whole, tokens_cons, last, tokens_nil]
    exact ⟨rfl, rfl⟩
  by_cases hc : isSpace c = true
  · rw [next_of_isSpace hc]
    refine .inl (settled_blank fun e he => ?_)
    rcases List.mem_cons.mp he with rfl | he
    · exact hc
    · exact List.mem_takeWhile_imp he
  by_cases hb : c = '}'
  · subst hb
    exact .inl settled_closing
  by_cases hn : c = '/' ∧ s.head? = some '*'
  · obtain ⟨rfl, hs⟩ := hn
    obtain ⟨u, rfl⟩ : ∃ u, s = '*' :: u := ⟨s.tail, List.eq_cons_of_mem_head? hs⟩
    have comment : next '/' ('*' :: u) =
        (.comment ('/' :: '*' :: (commentRest false u).1), (commentRest false u).2) := by
      simp [next, isSpace]
    rw [comment] at last ⊢
    obtain ⟨d, r, hr⟩ := List.exists_cons_of_ne_nil last
    exact .inl (settled_comment hr)
  have begins : BeginsItem (c :: s) := ⟨by simpa using hc, hb, hn⟩
  rw [next_of_beginsItem begins] at last ⊢
  cases hu : (Scan.upTo true isDelimiter .start (c :: s)).2 with
  | nil =>
    rw [hu] at last
    exact absurd rfl last
  | cons d r => exact precedes_ofItem (isItem_upTo begins (Prod.ext rfl hu)) r

theorem legible_tokens (s : List Char) : Legible (tokens s) := by
  fun_induction tokens s with
  | case1 => trivial
  | case2 c s ih => exact ⟨Token.precedes_next c s, ih⟩

end StyleExports.Stylesheet
