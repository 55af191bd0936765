import StyleExports.Proofs.EsModule.Balanced
import StyleExports.Proofs.EsModule.Gap
import StyleExports.Proofs.EsModule.Kept

namespace StyleExports.EsModule

open Text Piece

/-- The characters of words: those of identifiers, and all beyond ASCII but blanks. -/
def isWordChar (c : Char) : Bool := isIdentChar c || (decide (128 ≤ c.toNat) && !isBlank c)

def IsWord (s : List Char) : Prop := s ≠ [] ∧ ∀ c ∈ s, isWordChar c = true

instance : DecidablePred IsWord := fun s =>
  decidable_of_iff ((!s.isEmpty && s.all isWordChar) = true) <| by simp [IsWord]

/-- Identifiers as the program knows them: of ASCII letters and digits, the underscore and the dollar
sign. -/
def IsIdentifier (s : List Char) : Prop := s ≠ [] ∧ ∀ c ∈ s, isIdentChar c = true

instance : DecidablePred IsIdentifier := fun s =>
  decidable_of_iff ((!s.isEmpty && s.all isIdentChar) = true) <| by simp [IsIdentifier]

section

variable {c : Char} {b n r s t : List Char}

theorem IsIdentifier.isWord (h : IsIdentifier s) : IsWord s :=
  ⟨h.1, fun c hc => by rw [isWordChar, h.2 c hc, Bool.true_or]⟩

theorem isBlank_of_isWordChar (h : isWordChar c = true) : isBlank c = false := by
  rw [Bool.eq_false_iff]
  intro hb
  simp [isWordChar, hb, Scan.isIdentChar_of_isBlank hb] at h

theorem isSpace_of_isWordChar (h : isWordChar c = true) : isSpace c = false := by
  rw [Bool.eq_false_iff]
  intro hs
  simpa [isBlank_of_isSpace hs] using isBlank_of_isWordChar h

theorem isNameChar_of_isWordChar (h : isWordChar c = true) : isNameChar c = true := by
  have idle := Scan.isIdle_of_class h (isSpace_of_isWordChar h) (forall_mem_of_all (by decide))
  exact isNameChar_iff.mpr ⟨idle, isBlank_of_isWordChar h, ne_of_class h (by decide)⟩

theorem IsWord.isPlainName (h : IsWord n) : isPlainName n = true :=
  isPlainName_iff.mpr ⟨h.1, fun c hc => isNameChar_of_isWordChar (h.2 c hc)⟩

theorem IsWord.isTight (h : IsWord n) : IsTight n := isTight_of_isPlainName h.isPlainName

theorem IsIdentifier.identifier? (h : IsIdentifier s) : identifier? s = some (String.ofList s) := by
  obtain ⟨c, s, rfl⟩ := List.exists_cons_of_ne_nil h.1
  rw [EsModule.identifier?, List.takeWhile_eq_self_iff.mpr h.2]

theorem identifier?_of_word (hn : n ≠ []) (h : ∀ c ∈ n, isIdentChar c = true) :
    identifier? n = some (String.ofList n) := IsIdentifier.identifier? ⟨hn, h⟩

/-- A word is read up to its end if no other goes on behind it. -/
theorem identifier?_append (hn : n ≠ []) (hr : IsApart n r) : identifier? (n ++ r) = identifier? n := by
  have take : (n ++ r).takeWhile isIdentChar = n.takeWhile isIdentChar := by
    rw [List.takeWhile_append]
    split
    · rename_i hl
      have whole : n.takeWhile isIdentChar = n := (List.takeWhile_prefix _).eq_of_length hl
      have last := List.getLast?_eq_some_getLast hn
      have stop := hr _ last (List.takeWhile_eq_self_iff.mp whole _ (List.getLast_mem hn))
      cases r with
      | nil => rw [List.takeWhile_nil, List.append_nil, whole]
      | cons d r => rw [List.takeWhile_cons_of_neg (by simp [stop d rfl]), List.append_nil, whole]
    · rfl
  rw [identifier?, take, ← identifier?]

theorem Piece.IsApart.of_isPrefix (h : IsApart n t) (hs : s <+: t) : IsApart n s := by
  intro c hc hi d hd
  obtain ⟨u, rfl⟩ := hs
  cases s with
  | nil => simp at hd
  | cons e s => exact h c hc hi d hd

theorem exists_partsFrom (sep : Char) (d : Nat) (p : Option Char) (m : Inside) (s : List Char) :
    ∃ w ws, partsFrom sep d p m s = w :: ws ∧ w <+: s := by
  induction s generalizing d p m with
  | nil => exact ⟨[], [], by rw [partsFrom], List.nil_prefix⟩
  | cons c s ih =>
    have more (d : Nat) (p : Option Char) (m : Inside) :
        ∃ w ws, consFirst c (partsFrom sep d p m s) = w :: ws ∧ w <+: c :: s := by
      obtain ⟨w, ws, hw, hp⟩ := ih d p m
      exact ⟨c :: w, ws, by rw [hw]; rfl, List.cons_prefix_cons.mpr ⟨rfl, hp⟩⟩
    cases m with
    | lost => exact more _ _ _
    | literal l =>
      simp only [partsFrom]
      split <;> exact more _ _ _
    | plain =>
      simp only [partsFrom]
      repeat' split
      all_goals first
        | exact more _ _ _
        | exact ⟨[], _, rfl, List.nil_prefix⟩

theorem spans_word {sep : Char} {d : Nat} (hn : IsWord n) (hs : isWordChar sep = false) :
    Spans sep d .plain n d .plain :=
  spans_all (fun c hc => .inl (isNameChar_iff.mp (isNameChar_of_isWordChar (hn.2 c hc))).1)
    fun c hc => .inl (ne_of_class (hn.2 c hc) hs)

theorem spans_spaces {sep : Char} {d : Nat} (hb : ∀ c ∈ b, isSpace c = true)
    (hs : isSpace sep = false) : Spans sep d .plain b d .plain :=
  spans_all (fun c hc => .inr (hb c hc)) fun c hc => .inl (ne_of_class (hb c hc) hs)

theorem isBlank_of_spaces (hb : ∀ c ∈ b, isSpace c = true) : ∀ c ∈ b, isBlank c = true :=
  fun c hc => isBlank_of_isSpace (hb c hc)

theorem IsWord.head (hn : IsWord n) (r : List Char) : ∀ c ∈ (n ++ r).head?, isWordChar c = true := by
  intro c hc
  rw [List.head?_append_of_ne_nil _ hn.1] at hc
  exact hn.2 c (List.mem_of_head? hc)

theorem IsWord.head_not_blank (hn : IsWord n) (r : List Char) :
    ∀ c ∈ (n ++ r).head?, isBlank c = false := fun c hc =>
  (isNameChar_iff.mp (isNameChar_of_isWordChar (hn.head r c hc))).2.1

theorem bareTarget_append (hb : ∀ c ∈ b, isSpace c = true) (hn : IsWord n) (r : List Char) :
    bareTarget (b ++ (n ++ r)) = n ++ trimEnd r := by
  obtain ⟨m, d, rfl⟩ : ∃ m d, n = m ++ [d] := ⟨_, _, (List.dropLast_append_getLast hn.1).symm⟩
  have last : isBlank d = false := hn.isTight.2 d (by simp)
  have trimmed : trim (b ++ (m ++ [d] ++ r)) = m ++ [d] ++ trimEnd r := by
    rw [trim, trimStart_pad (isBlank_of_spaces hb) (hn.head_not_blank r), trimEnd, List.append_assoc,
      List.singleton_append, dropEndWhile_append_cons last, List.append_assoc]
    rfl
  rw [bareTarget, trimmed]
  have head := hn.head (trimEnd r)
  unfold dropDots
  split
  · rename_i hdots
    rw [hdots] at head
    exact absurd (head '.' rfl) (by decide)
  · rfl

theorem targetNames_append (hb : ∀ c ∈ b, isSpace c = true) (hn : IsWord n) (hr : IsApart n r) :
    targetNames (b ++ (n ++ r)) = (identifier? n).toList := by
  obtain ⟨e, -, hre⟩ := exists_dropEndWhile isBlank r
  have bare := bareTarget_append hb hn r
  have word : identifier? (n ++ trimEnd r) = identifier? n :=
    identifier?_append hn.1 (hr.of_isPrefix ⟨e, hre.symm⟩)
  have pattern : pattern? (bareTarget (b ++ (n ++ r))) = none := by
    rw [bare]
    obtain ⟨a, m, rfl⟩ := List.exists_cons_of_ne_nil hn.1
    have ne (d : Char) (hd : isWordChar d = false) : a ≠ d := ne_of_class (hn.2 a (by simp)) hd
    simp [pattern?, between?, ne '{' (by decide), ne '[' (by decide)]
  rw [targetNames]
  split
  · rw [bare, word]
  · rename_i h
    simp [pattern] at h

/-- A declarator that begins with a word binds it. -/
theorem targetNames_firstPart (hb : ∀ c ∈ b, isSpace c = true) (hn : IsWord n) (hr : IsApart n r) :
    targetNames (firstPart '=' (b ++ (n ++ r))) = (identifier? n).toList := by
  have whole : Spans '=' 0 .plain (b ++ n) 0 .plain :=
    (spans_spaces hb (by decide)).append (spans_word hn (by decide))
  obtain ⟨q, hq⟩ := whole none r
  obtain ⟨w, ws, hw, hp⟩ := exists_partsFrom '=' 0 q .plain r
  have first : firstPart '=' (b ++ (n ++ r)) = b ++ (n ++ w) := by
    rw [hw, foldr_consFirst] at hq
    rw [firstPart, parts, ← List.append_assoc, hq, ← List.append_assoc]
    rfl
  rw [first, targetNames_append hb hn (hr.of_isPrefix hp)]

/-- Only an equals sign depends on the character before it. -/
theorem partsFrom_previous {sep : Char} (hs : sep ≠ '=') (d : Nat) (p q : Option Char) (m : Inside)
    (s : List Char) : partsFrom sep d p m s = partsFrom sep d q m s := by
  have simple : (sep == '=') = false := beq_eq_false_iff_ne.mpr hs
  cases s with
  | nil => simp only [partsFrom]
  | cons c s => cases m <;> simp only [partsFrom, isCompound, simple, Bool.false_and]

theorem partsFrom_cut {sep : Char} (hs : sep = ',' ∨ sep = ':') (p : Option Char) (t : List Char) :
    partsFrom sep 0 p .plain (sep :: t) = [] :: parts sep t := by
  rw [parts, partsFrom_previous (by rcases hs with rfl | rfl <;> decide) 0 none (some sep)]
  rcases hs with rfl | rfl <;> simp [partsFrom, Literal.open?, isCompound]

theorem parts_append_cut {sep : Char} (hs : sep = ',' ∨ sep = ':') (h : Spans sep 0 .plain s 0 .plain)
    (t : List Char) : parts sep (s ++ sep :: t) = s :: parts sep t := by
  obtain ⟨q, hq⟩ := h none (sep :: t)
  rw [parts, hq, partsFrom_cut hs, foldr_consFirst, List.append_nil]

theorem parts_append_comma (h : Spans ',' 0 .plain s 0 .plain) (t : List Char) :
    parts ',' (s ++ ',' :: t) = s :: parts ',' t := parts_append_cut (.inl rfl) h t

/-- Tokens and gaps between which and in which no list of declarators is cut; so many brackets are
open before and after them. -/
inductive Nested : Nat → List Piece → Nat → Prop where
  | nil {d : Nat} : Nested d [] d
  | cons {d e f : Nat} {p : Piece} {ps : List Piece} (hg : Spans ',' d .plain p.gap d .plain)
      (hp : Spans ',' d .plain p.token e .plain) (h : Nested e ps f) : Nested d (p :: ps) f

theorem Nested.spans {d e : Nat} {ps : List Piece} (h : Nested d ps e) :
    Spans ',' d .plain (text ps) e .plain := by
  induction h with
  | nil => exact fun p t => ⟨p, rfl⟩
  | cons hg hp _ ih =>
    rw [text_cons]
    exact hg.append (hp.append ih)

theorem spans_blank {d : Nat} : Spans ',' d .plain [' '] d .plain :=
  spans_spaces (forall_mem_of_all (by decide)) (by decide)

theorem Nested.spaced {d e : Nat} {ps : List Piece} (h : Nested d ps e) :
    Nested d (ps.map Piece.spaced) e := by
  induction h with
  | nil => exact .nil
  | cons _ hp _ ih => exact .cons spans_blank hp ih

/-- Declarators up to the semicolon behind them, and the names that they bind. -/
inductive Declares : List Piece → List String → Prop where
  | last {g n e : List Char} {ps : List Piece} (hg : ∀ c ∈ g, isSpace c = true) (hn : IsWord n)
      (hps : Nested 0 ps 0) (he : Spans ',' 0 .plain e 0 .plain) :
      Declares (⟨g, n⟩ :: (ps ++ [⟨e, [';']⟩])) (identifier? n).toList
  | cons {g n e : List Char} {ps qs : List Piece} {names : List String}
      (hg : ∀ c ∈ g, isSpace c = true) (hn : IsWord n) (hps : Nested 0 ps 0)
      (he : Spans ',' 0 .plain e 0 .plain) (hqs : Declares qs names) :
      Declares (⟨g, n⟩ :: (ps ++ ⟨e, [',']⟩ :: qs)) ((identifier? n).toList ++ names)

theorem Declares.spaced {ps : List Piece} {names : List String} (h : Declares ps names) :
    Declares (ps.map Piece.spaced) names := by
  have blank : ∀ c ∈ [' '], isSpace c = true := forall_mem_of_all (by decide)
  induction h with
  | last _ hn hps _ =>
    rw [List.map_cons, List.map_append]
    exact .last blank hn hps.spaced spans_blank
  | cons _ hn hps _ _ ih =>
    rw [List.map_cons, List.map_append]
    exact .cons blank hn hps.spaced spans_blank ih

theorem Piece.AreApart.of_append {ps qs : List Piece} (h : AreApart (ps ++ qs)) : AreApart qs := by
  induction ps with
  | nil => exact h
  | cons p ps ih => exact ih h.2

theorem spans_declarator {g e : List Char} {ps : List Piece} (hg : ∀ c ∈ g, isSpace c = true)
    (hn : IsWord n) (hps : Nested 0 ps 0) (he : Spans ',' 0 .plain e 0 .plain) :
    Spans ',' 0 .plain (g ++ (n ++ (text ps ++ e))) 0 .plain :=
  (spans_spaces hg (by decide)).append ((spans_word hn (by decide)).append (hps.spans.append he))

/-- The names in a list of declarators are those of its declarators. -/
theorem exists_declarators {ps : List Piece} {names : List String} (h : Declares ps names)
    (ha : AreApart ps) : ∃ s, text ps = s ++ [';'] ∧ declaratorNames s = names := by
  induction h with
  | @last g n e ps hg hn hps he =>
    refine ⟨g ++ (n ++ (text ps ++ e)), by simp [text], ?_⟩
    have apart : IsApart n (text ps ++ e) := ha.1.of_isPrefix ⟨[';'], by simp [text]⟩
    rw [declaratorNames, parts_of_spans (spans_declarator hg hn hps he), List.flatMap_singleton,
      targetNames_firstPart hg hn apart]
  | @cons g n e ps qs names hg hn hps he _ ih =>
    obtain ⟨s, hs, hnames⟩ := ih (AreApart.of_append ha.2).2
    refine ⟨g ++ (n ++ (text ps ++ e)) ++ ',' :: s, by simp [text_cons, text_append, hs], ?_⟩
    have apart : IsApart n (text ps ++ e) :=
      ha.1.of_isPrefix ⟨',' :: text qs, by simp [text_cons, text_append]⟩
    rw [declaratorNames, parts_append_comma (spans_declarator hg hn hps he), List.flatMap_cons,
      targetNames_firstPart hg hn apart, ← declaratorNames, hnames]

def nameKeywords : List (List Char) := ["function", "class"].map String.toList

def variableKeywords : List (List Char) := ["const", "let", "var"].map String.toList

theorem declaredNames_of_variableBody? {body : List Char} (ha : afterKeyword? "async".toList s = none)
    (hf : afterKeyword? "function".toList s = none) (hc : afterKeyword? "class".toList s = none)
    (hv : variableBody? s = some body) :
    declaredNames s = declaratorNames (dropEndWhile (· == ';') (trim body)) := by
  simp only [declaredNames, ha, hf, hc, hv]

theorem declaredNames_variables {k : List Char} (hk : k ∈ variableKeywords)
    (hs : ∀ c ∈ s.head?, isIdentChar c = false) : declaredNames (k ++ s) =
      declaratorNames (dropEndWhile (· == ';') (trim s)) := by
  have keyword := afterKeyword?_append (k := k) hs
  simp only [variableKeywords, List.map_cons, List.map_nil, List.mem_cons, List.not_mem_nil,
    or_false] at hk
  rcases hk with rfl | rfl | rfl
  · exact declaredNames_of_variableBody? rfl rfl rfl (by rw [variableBody?, keyword]; rfl)
  · exact declaredNames_of_variableBody? rfl rfl rfl (by rw [variableBody?, keyword]; rfl)
  · exact declaredNames_of_variableBody? rfl rfl rfl (by rw [variableBody?, keyword]; rfl)

theorem Piece.IsApart.head (h : IsApart s t) (hs : s.getLast?.any isIdentChar = true) :
    ∀ c ∈ t.head?, isIdentChar c = false := by
  cases hl : s.getLast? with
  | none => simp [hl] at hs
  | some d => exact h d hl (by simpa [hl] using hs)

/-- The blanks in front of the first declarator matter to none. -/
theorem Declares.exists_cons {ps : List Piece} {names : List String} (h : Declares ps names) :
    ∃ g n qs, ps = ⟨g, n⟩ :: qs ∧ (∀ c ∈ g, isSpace c = true) ∧ IsWord n ∧
      Declares (⟨[], n⟩ :: qs) names := by
  cases h with
  | last hg hn hps he => exact ⟨_, _, _, rfl, hg, hn, .last (by simp) hn hps he⟩
  | cons hg hn hps he hqs => exact ⟨_, _, _, rfl, hg, hn, .cons (by simp) hn hps he hqs⟩

/-- The names that a statement declares are those of its declarators: of what follows the keyword, the
blanks at the start and the semicolon go. -/
theorem declaredNames_of_declares {k : List Char} {ps : List Piece} {names : List String}
    (hk : k ∈ variableKeywords) (h : Declares ps names) (ha : AreApart (⟨[], k⟩ :: ps))
    (hl : ∀ s, text ps = s ++ [';'] → s.getLast? ≠ some ';') :
    declaredNames (k ++ text ps) = names := by
  have keyword : ∀ k ∈ variableKeywords, k.getLast?.any isIdentChar = true := by decide
  obtain ⟨g, n, qs, rfl, hg, hn, hd⟩ := h.exists_cons
  have apart : AreApart (⟨[], n⟩ :: qs) := ha.2
  obtain ⟨s, hs, hnames⟩ := exists_declarators hd apart
  have shape : text (⟨g, n⟩ :: qs) = g ++ (s ++ [';']) := by
    rw [← hs, text_cons, text_cons]
    rfl
  have last : ∀ c ∈ s.getLast?, (c == ';') = false := by
    intro c hc
    rw [beq_eq_false_iff_ne]
    rintro rfl
    exact hl (g ++ s) (by rw [shape, List.append_assoc])
      (by simp [List.getLast?_append, Option.mem_def.mp hc])
  have tight : IsTight (s ++ [';']) := by
    refine ⟨fun c hc => ?_, forall_getLast?_concat (by decide)⟩
    rw [← hs, text_cons, List.nil_append] at hc
    exact hn.head_not_blank (text qs) c hc
  have trimmed := trim_pad (e := []) (isBlank_of_spaces hg) tight (by simp)
  rw [List.append_nil] at trimmed
  rw [declaredNames_variables hk (ha.1.head (keyword k hk)), shape, trimmed, dropEndWhile_concat,
    if_pos (beq_self_eq_true _), dropEndWhile_of_last last, hnames]

theorem declaredNames_word {k g : List Char} (hk : k ∈ nameKeywords)
    (hg : ∀ c ∈ g, isSpace c = true) (hn : IsWord n) (ha : IsApart k (g ++ (n ++ r)))
    (hr : IsApart n r) : declaredNames (k ++ (g ++ (n ++ r))) = (identifier? n).toList := by
  have letters : ∀ k ∈ nameKeywords, k.getLast?.any isIdentChar = true := by decide
  have keyword := afterKeyword?_append (k := k) (ha.head (letters k hk))
  have star : ∀ c ∈ (n ++ r).head?, (c == '*') = false := fun c hc =>
    beq_eq_false_iff_ne.mpr (ne_of_class (hn.head r c hc) (by decide))
  have word := identifier?_append hn.1 hr
  have bare : trimStart (n ++ r) = n ++ r := trimStart_pad (b := []) (by simp) (hn.head_not_blank r)
  have trimmed := trimStart_pad (isBlank_of_spaces hg) (hn.head_not_blank r)
  simp only [nameKeywords, List.map_cons, List.map_nil, List.mem_cons, List.not_mem_nil, or_false] at hk
  rcases hk with rfl | rfl
  · have async : afterKeyword? "async".toList ("function".toList ++ (g ++ (n ++ r))) = none := rfl
    simp only [declaredNames, async, keyword, trimmed, dropWhile_eq_self_of_head star, bare, word]
  · have async : afterKeyword? "async".toList ("class".toList ++ (g ++ (n ++ r))) = none := rfl
    have function : afterKeyword? "function".toList ("class".toList ++ (g ++ (n ++ r))) = none := rfl
    simp only [declaredNames, async, function, keyword, trimmed, word]

end

end StyleExports.EsModule
