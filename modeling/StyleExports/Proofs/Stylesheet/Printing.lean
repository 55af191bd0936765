import Mathlib.Data.List.Infix
import StyleExports.Export.Rule
import StyleExports.Proofs.Stylesheet.Reading
import StyleExports.Proofs.Text.Separator

namespace StyleExports

open Text

namespace Text

theorem words_cons_of_isBlank {c : Char} (h : isBlank c = true) (s : List Char) :
    words (c :: s) = words s := by
  cases s <;> simp [words, h]

/-- A word ends where a blank or nothing follows. -/
theorem words_append {w r : List Char} (hn : w ≠ []) (hw : ∀ c ∈ w, isBlank c = false)
    (hr : ∀ c ∈ r.head?, isBlank c = true) : words (w ++ r) = w :: words r := by
  induction w with
  | nil => exact absurd rfl hn
  | cons c w ih =>
    have hc := hw c List.mem_cons_self
    cases w with
    | nil =>
      cases r with
      | nil => simp [words, hc]
      | cons d r => simp [words, hc, hr d rfl]
    | cons d w =>
      have hd := hw d (List.mem_cons_of_mem c List.mem_cons_self)
      have next := ih (List.cons_ne_nil d w) fun e he => hw e (List.mem_cons_of_mem c he)
      simp only [List.cons_append] at next ⊢
      rw [words.eq_def (c :: d :: (w ++ r))]
      simp [hc, hd, next]

theorem words_flatMap {ws : List (List Char)} (hn : ∀ w ∈ ws, w ≠ [])
    (hb : ∀ w ∈ ws, ∀ c ∈ w, isBlank c = false) : words (ws.flatMap (' ' :: ·)) = ws := by
  induction ws with
  | nil => rfl
  | cons w ws ih =>
    rw [List.forall_mem_cons] at hn hb
    have blank : ∀ c ∈ (ws.flatMap (' ' :: ·)).head?, isBlank c = true := by
      cases ws with
      | nil => simp
      | cons v ws => exact forall_head?_cons (p := fun c => isBlank c = true) (by decide)
    rw [List.flatMap_cons, List.cons_append, words_cons_of_isBlank (by decide),
      words_append hn.1 hb.1 blank, ih hn.2 hb.2]

end Text

namespace Stylesheet

def isKeyChar (c : Char) : Bool :=
  !(isBlank c || isQuote c || Token.isDelimiter c || c ∈ Export.forbidden || c ∈ Export.discouraged)

def isValueChar (c : Char) : Bool :=
  !(isQuote c || Token.isDelimiter c || c ∈ ['(', ')', '[', ']', '!', '\\'])

/-- A name that can be printed. -/
def IsKey (k : String) : Prop := k ≠ "" ∧ ∀ c ∈ k.toList, isKeyChar c = true

/-- A value that can be printed. -/
structure IsText (x : String) : Prop where
  tight : IsTight x.toList
  chars : ∀ c ∈ x.toList, isValueChar c = true
  comment : ¬ ['/', '*'] <:+: x.toList

instance : DecidablePred IsKey := fun k =>
  decidable_of_iff (k ≠ "" ∧ k.toList.all isKeyChar = true) <| by rw [List.all_eq_true, IsKey]

instance : DecidablePred IsText := fun x =>
  decidable_of_iff (IsTight x.toList ∧ x.toList.all isValueChar = true ∧
    ¬ ['/', '*'] <:+: x.toList) <| by
      rw [List.all_eq_true]
      exact ⟨fun ⟨tight, chars, comment⟩ => ⟨tight, chars, comment⟩,
        fun ⟨tight, chars, comment⟩ => ⟨tight, chars, comment⟩⟩

variable {k x : String} {c : Char}

theorem isKeyChar_apart (h : isKeyChar c = true) : isBlank c = false ∧ isQuote c = false ∧
    Token.isDelimiter c = false ∧ c ∉ Export.forbidden ∧ c ∉ Export.discouraged := by
  simpa [isKeyChar, and_assoc] using h

theorem isValueChar_apart (h : isValueChar c = true) : isQuote c = false ∧
    Token.isDelimiter c = false ∧ c ∉ ['(', ')', '[', ']', '!', '\\'] := by
  simpa [isValueChar, and_assoc] using h

namespace Scan

/-- Whether a character leaves the scan where nothing protects and nothing is open. -/
def isInert (c : Char) : Bool := !(isQuote c || c ∈ ['/', '\\', '#', '(', ')', '[', ']'])

variable {item : Bool} {st : Scan} {s : List Char} {c : Char}

theorem step_inert (h : isInert c = true) : start.step item c = start := by
  simp only [isInert, Bool.not_eq_true', Bool.or_eq_false_iff, decide_eq_false_iff_not,
    List.mem_cons, List.not_mem_nil, or_false, not_or] at h
  obtain ⟨hq, slash, esc, hash, ho, hc, hs, ht⟩ := h
  simp [step, start, isFree, plainStep, hq, slash, esc, hash, ho, hc, hs, ht]

theorem run_inert (h : ∀ c ∈ s, isInert c = true) : run item start s = start := by
  induction s with
  | nil => rfl
  | cons c s ih =>
    rw [List.forall_mem_cons] at h
    rw [run, List.foldl_cons, step_inert h.1]
    exact ih h.2

/-- Outside brackets and all that protects; a slash or a number sign may have come last. -/
def IsOpen (st : Scan) : Prop :=
  st.depth = 0 ∧ (st.mode = .plain ∨ st.mode = .slash ∨ st.mode = .hash)

theorem IsOpen.isFree (h : st.IsOpen) (hc : c ≠ '{') (hs : st.mode = .slash → c ≠ '*') :
    st.isFree c = true := by
  obtain ⟨-, hm | hm | hm⟩ := h
  · simp [Scan.isFree, hm]
  · simpa [Scan.isFree, hm] using hs hm
  · simp [Scan.isFree, hm, hc]

theorem IsOpen.endsAt (h : st.IsOpen) : st.endsAt Token.isDelimiter ';' = true := by
  rw [Scan.endsAt, h.isFree (by decide) (fun _ => by decide), h.1]
  rfl

theorem IsOpen.step (h : st.IsOpen) (hc : isValueChar c = true) (hs : st.mode = .slash → c ≠ '*') :
    (st.step true c).IsOpen ∧ ((st.step true c).mode = .slash → c = '/') := by
  obtain ⟨quote, delimiter, other⟩ := isValueChar_apart hc
  have brace : c ≠ '{' := by
    rintro rfl
    exact absurd delimiter (by decide)
  have free := h.isFree brace hs
  simp only [List.mem_cons, List.not_mem_nil, or_false, not_or] at other
  obtain ⟨round, round', square, square', -, escape⟩ := other
  obtain ⟨depth, mode⟩ := st
  obtain rfl : depth = 0 := h.1
  rw [Scan.step, if_pos free]
  by_cases slash : c = '/'
  · subst slash
    exact ⟨⟨rfl, .inr (.inl rfl)⟩, fun _ => rfl⟩
  · by_cases hash : c = '#'
    · subst hash
      exact ⟨⟨rfl, .inr (.inr rfl)⟩, fun hm => by simp [plainStep, isQuote] at hm⟩
    · simp [plainStep, quote, slash, hash, round, round', square, square', escape, IsOpen]

/-- Values leave nothing open that a semicolon would not end. -/
theorem run_quiet (h : st.IsOpen) (hs : ∀ c ∈ s, isValueChar c = true)
    (hc : ¬ ['/', '*'] <:+: s) (hst : st.mode = .slash → s.head? ≠ some '*') :
    (run true st s).IsOpen := by
  induction s generalizing st with
  | nil => exact h
  | cons c s ih =>
    rw [List.forall_mem_cons] at hs
    have star : st.mode = .slash → c ≠ '*' := by
      intro hm hcs
      exact hst hm (by rw [hcs]; rfl)
    obtain ⟨open', slash⟩ := h.step hs.1 star
    refine ih open' hs.2 (fun hi => hc (hi.trans (List.suffix_cons c s).isInfix)) ?_
    intro hm hh
    obtain ⟨u, rfl⟩ : ∃ u, s = '*' :: u := ⟨s.tail, List.eq_cons_of_mem_head? hh⟩
    refine hc ?_
    rw [slash hm]
    exact (List.prefix_append ['/', '*'] u).isInfix

end Scan

theorem isInert_of_isKeyChar (h : isKeyChar c = true) : Scan.isInert c = true := by
  obtain ⟨-, quote, -, hf, hd⟩ := isKeyChar_apart h
  have forbidden (d : Char) (hm : d ∈ Export.forbidden) : c ≠ d := fun he => hf (he ▸ hm)
  have discouraged (d : Char) (hm : d ∈ Export.discouraged) : c ≠ d := fun he => hd (he ▸ hm)
  simp [Scan.isInert, quote, forbidden '/' (by decide), forbidden '#' (by decide),
    forbidden '(' (by decide), forbidden ')' (by decide), forbidden '[' (by decide),
    forbidden ']' (by decide), discouraged '\\' (by decide)]

theorem IsKey.toList_ne_nil (h : IsKey k) : k.toList ≠ [] :=
  fun hn => h.1 (String.toList_eq_nil_iff.mp hn)

theorem IsKey.isBlank (h : IsKey k) : ∀ c ∈ k.toList, Text.isBlank c = false :=
  fun c hc => (isKeyChar_apart (h.2 c hc)).1

theorem IsKey.isInert (h : IsKey k) : ∀ c ∈ k.toList, Scan.isInert c = true :=
  fun c hc => isInert_of_isKeyChar (h.2 c hc)

def declarationText (k x : String) : List Char := k.toList ++ ':' :: ' ' :: x.toList

theorem cutColon?_declarationText (hk : IsKey k) (x : String) :
    Declaration.cutColon? (declarationText k x) = some (k.toList, ' ' :: x.toList) := by
  have passes : Scan.Passes false (· == ':') .start k.toList := by
    apply Scan.passes_of_all
    intro c hc
    obtain ⟨-, -, -, hf, -⟩ := isKeyChar_apart (hk.2 c hc)
    have hn : c ≠ ':' := fun he => hf (he ▸ by decide)
    simpa using hn
  have ends : (Scan.run false .start k.toList).endsAt (· == ':') ':' = true := by
    rw [Scan.run_inert hk.isInert]
    rfl
  rw [Declaration.cutColon?, declarationText, Scan.upTo_cut passes ends]

theorem ofText?_declarationText (hk : IsKey k) (hx : IsText x) :
    Declaration.ofText? (declarationText k x) = some ⟨k, x, false⟩ := by
  have name : trim k.toList = k.toList := trim_of_tight (isTight_of_none hk.isBlank)
  have value : trim (' ' :: x.toList) = x.toList := by
    have pad := trim_pad (b := [' ']) (e := []) (List.forall_mem_singleton.mpr rfl) hx.tight
      (by simp)
    rwa [List.append_nil] at pad
  have bang : ∀ c ∈ x.toList, (c == '!') = false := by
    intro c hc
    have hv := hx.chars c hc
    rw [beq_eq_false_iff_ne]
    rintro rfl
    exact absurd hv (by decide)
  have flag : Declaration.splitFlag x.toList = (x.toList, false) := by
    rw [Declaration.splitFlag, cutLast?_eq_none bang]
  have named : k.toList.isEmpty = false := by simpa using hk.toList_ne_nil
  rw [Declaration.ofText?, cutColon?_declarationText hk]
  simp only [name, named, value, flag, String.ofList_toList]
  rfl

theorem atRule_declarationText (hk : IsKey k) (x : String) :
    AtRule.ofText? (declarationText k x) = none := by
  obtain ⟨c, t, ht⟩ := List.exists_cons_of_ne_nil hk.toList_ne_nil
  obtain ⟨-, -, -, hf, -⟩ := isKeyChar_apart (hk.2 c (by rw [ht]; exact List.mem_cons_self))
  have hn : c ≠ '@' := fun he => hf (he ▸ by decide)
  rw [declarationText, ht, List.cons_append, AtRule.ofText?]
  simpa using hn

theorem statement_declarationText (hk : IsKey k) (hx : IsText x) :
    Statement.ofText (declarationText k x) = .declaration ⟨k, x, false⟩ := by
  rw [Statement.ofText, atRule_declarationText hk, ofText?_declarationText hk hx]

theorem isItem_declarationText (hk : IsKey k) (hx : IsText x) :
    Token.IsItem (declarationText k x) ';' where
  begins := by
    obtain ⟨c, t, ht⟩ := List.exists_cons_of_ne_nil hk.toList_ne_nil
    obtain ⟨blank, -, delimiter, hf, -⟩ :=
      isKeyChar_apart (hk.2 c (by rw [ht]; exact List.mem_cons_self))
    rw [declarationText, ht]
    refine ⟨?_, ?_, fun hs => hf (hs.1 ▸ by decide)⟩
    · rw [Bool.eq_false_iff]
      intro hs
      rw [isBlank_of_isSpace hs] at blank
      exact absurd blank (by decide)
    · rintro rfl
      exact absurd delimiter (by decide)
  passes := by
    apply Scan.passes_of_all
    intro c hc
    rw [declarationText, List.mem_append, List.mem_cons, List.mem_cons] at hc
    rcases hc with hc | rfl | rfl | hc
    · obtain ⟨-, -, delimiter, -, -⟩ := isKeyChar_apart (hk.2 c hc)
      exact delimiter
    · rfl
    · rfl
    · exact (isValueChar_apart (hx.chars c hc)).2.1
  ends := by
    have name : Scan.run true .start (k.toList ++ [':', ' ']) = .start := by
      apply Scan.run_inert
      intro c hc
      rw [List.mem_append, List.mem_cons, List.mem_singleton] at hc
      rcases hc with hc | rfl | rfl
      · exact hk.isInert c hc
      · rfl
      · rfl
    have value : (Scan.run true .start x.toList).IsOpen :=
      Scan.run_quiet ⟨rfl, .inl rfl⟩ hx.chars hx.comment (by simp [Scan.start])
    have parts : declarationText k x = (k.toList ++ [':', ' ']) ++ x.toList := by
      simp [declarationText]
    rw [parts, Scan.run_append, name]
    exact value.endsAt

end Stylesheet

namespace Export

open Stylesheet

/-- The path of a printed selector: its names, with a blank in front of each. -/
def pathText (p : List String) : List Char := (p.map String.toList).flatMap (' ' :: ·)

def preludeText (m : Marker) (p : List String) : List Char := m.text ++ pathText p ++ [' ']

variable {m : Marker} {p : List String}

theorem mem_pathText {c : Char} (h : c ∈ pathText p) : c = ' ' ∨ ∃ k ∈ p, c ∈ k.toList := by
  rw [pathText, List.flatMap_map, List.mem_flatMap] at h
  obtain ⟨k, hk, hc⟩ := h
  rcases List.mem_cons.mp hc with hc | hc
  · exact .inl hc
  · exact .inr ⟨k, hk, hc⟩

theorem segments_pathText (hp : ∀ k ∈ p, IsKey k) : Selector.segments ⟨m, pathText p⟩ = p := by
  have found : words (pathText p) = p.map String.toList := by
    apply words_flatMap
    · simpa using fun k hk => (hp k hk).1
    · simpa using fun k hk => (hp k hk).isBlank
  rw [Selector.segments, found, List.map_map]
  exact (List.map_congr_left fun k _ => String.ofList_toList).trans (List.map_id p)

theorem PathIssue.inPathFrom_eq_nil {s : List Char} (n : Nat) (h : ∀ c ∈ s, kind? c = none) :
    inPathFrom n s = [] := by
  induction s generalizing n with
  | nil => rfl
  | cons c s ih =>
    rw [List.forall_mem_cons] at h
    rw [inPathFrom, h.1]
    exact ih _ h.2

theorem issues_pathText (hp : ∀ k ∈ p, IsKey k) : PathIssue.inPath (pathText p) = [] := by
  have clean : ∀ c ∈ pathText p, PathIssue.kind? c = none := by
    intro c hc
    rcases mem_pathText hc with rfl | ⟨k, hk, hc⟩
    · rfl
    · obtain ⟨-, -, -, hf, hd⟩ := isKeyChar_apart ((hp k hk).2 c hc)
      rw [PathIssue.kind?, if_neg hf, if_neg hd]
  exact PathIssue.inPathFrom_eq_nil 0 clean

theorem ofText?_append_pathText (m : Marker) (p : List String) :
    Selector.ofText? (m.text ++ pathText p) = some ⟨m, pathText p⟩ := by
  have path : Selector.isPath (pathText p) = true := by
    cases p with
    | nil => rfl
    | cons k p => rfl
  have own : Selector.matchMarker? m (m.text ++ pathText p) = some ⟨m, pathText p⟩ := by
    have found := List.isPrefixOf?_eq_some_iff_append_eq.mpr
      (rfl : m.text ++ pathText p = m.text ++ pathText p)
    rw [Selector.matchMarker?, found]
    simp only [path, if_true]
  cases m with
  | «export» => rw [Selector.ofText?, own, Option.some_or]
  | share =>
    have other : Selector.matchMarker? .export (Marker.share.text ++ pathText p) = none := rfl
    rw [Selector.ofText?, own, other, Option.none_or]

theorem getLast?_text_append (m : Marker) (hp : ∀ k ∈ p, IsKey k) :
    ∀ c ∈ (m.text ++ pathText p).getLast?, isBlank c = false := by
  intro c hc
  rcases p.eq_nil_or_concat' with rfl | ⟨q, k, rfl⟩
  · cases m with
    | «export» =>
      obtain rfl := Option.some.inj hc
      decide
    | share =>
      obtain rfl := Option.some.inj hc
      decide
  · have hk := hp k (by simp)
    have parts : m.text ++ pathText (q ++ [k]) = (m.text ++ pathText q ++ [' ']) ++ k.toList := by
      simp [pathText]
    rw [parts, List.getLast?_append_of_ne_nil _ hk.toList_ne_nil] at hc
    exact hk.isBlank c (List.mem_of_getLast? hc)

/-- A printed selector is found in front of its block. -/
theorem exportSelector?_preludeText (m : Marker) (hp : ∀ k ∈ p, IsKey k) :
    exportSelector? (preludeText m p) = some ⟨m, pathText p⟩ := by
  have rule : Prelude.ofText (preludeText m p) = .rule (trimEnd (preludeText m p)) := by
    cases m <;> rfl
  have trimmed : trimEnd (preludeText m p) = m.text ++ pathText p :=
    trimEnd_pad (getLast?_text_append m hp) (List.forall_mem_singleton.mpr rfl)
  rw [exportSelector?, rule, trimmed]
  exact ofText?_append_pathText m p

theorem isItem_preludeText (m : Marker) (hp : ∀ k ∈ p, IsKey k) :
    Token.IsItem (preludeText m p) '{' := by
  have marker : ∀ c ∈ m.text, Scan.isInert c = true ∧ Token.isDelimiter c = false := by
    cases m <;> exact forall_mem_of_all (by decide)
  have chars : ∀ c ∈ preludeText m p, Scan.isInert c = true ∧ Token.isDelimiter c = false := by
    intro c hc
    rw [preludeText, List.mem_append, List.mem_append, List.mem_singleton] at hc
    rcases hc with (hc | hc) | rfl
    · exact marker c hc
    · rcases mem_pathText hc with rfl | ⟨k, hk, hc⟩
      · decide
      · obtain ⟨-, -, delimiter, -, -⟩ := isKeyChar_apart ((hp k hk).2 c hc)
        exact ⟨(hp k hk).isInert c hc, delimiter⟩
    · decide
  constructor
  · cases m with
    | «export» => exact ⟨rfl, by decide, fun hs => absurd hs.1 (by decide)⟩
    | share => exact ⟨rfl, by decide, fun hs => absurd hs.1 (by decide)⟩
  · exact Scan.passes_of_all fun c hc => (chars c hc).2
  · rw [Scan.run_inert fun c hc => (chars c hc).1]
    rfl

end Export

end StyleExports
