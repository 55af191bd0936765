import StyleExports.Proofs.EsModule.Beside
import StyleExports.Proofs.EsModule.Layout

namespace StyleExports.EsModule

open Text Piece

section

variable {a b e s t w r : List Char} {sep c : Char} {d : Nat} {p : Option Char} {m : Inside} {n : String}

theorem partsFrom_of_not_mem (h : sep ∉ s) : partsFrom sep d p m s = [s] := by
  induction s generalizing d p m with
  | nil => rw [partsFrom]
  | cons c s ih =>
    rw [List.mem_cons, not_or] at h
    have more (d : Nat) (m : Inside) : consFirst c (partsFrom sep d (some c) m s) = [c :: s] := by
      rw [ih h.2]
      rfl
    have ne : ¬(c = sep) := Ne.symm h.1
    cases m with
    | lost => exact more d .lost
    | literal l =>
      simp only [partsFrom]
      split <;> exact more _ _
    | plain =>
      simp only [partsFrom, ne, false_and, if_false]
      repeat' split
      all_goals exact more _ _

theorem partsFrom_comma_inside (h : ¬(d = 0 ∧ m = .plain)) (hs : ',' ∉ s) :
    partsFrom ',' d p m (',' :: s) = [',' :: s] := by
  have more (d : Nat) (m : Inside) : consFirst ',' (partsFrom ',' d (some ',') m s) = [',' :: s] := by
    rw [partsFrom_of_not_mem hs]
    rfl
  cases m with
  | lost => exact more d .lost
  | literal l =>
    simp only [partsFrom]
    split <;> exact more _ _
  | plain =>
    have depth : d ≠ 0 := fun hd => h ⟨hd, rfl⟩
    simp only [partsFrom, Literal.open?, depth, Char.reduceEq, or_self, and_false, false_and, if_false]
    exact more d .plain

/-- Commas cut a text into `ws` and `w`. What follows it goes on with `w`, with `d'` brackets open and
inside of `m'`. -/
def Cuts (d : Nat) (m : Inside) (s : List Char) (ws : List (List Char)) (w : List Char) (d' : Nat)
    (m' : Inside) : Prop :=
  ∀ p t, partsFrom ',' d p m (s ++ t) = ws ++ w.foldr consFirst (partsFrom ',' d' none m' t)

theorem exists_cuts (d : Nat) (m : Inside) (s : List Char) : ∃ ws w d' m', Cuts d m s ws w d' m' := by
  induction s generalizing d m with
  | nil => exact ⟨[], [], d, m, fun p t => partsFrom_previous (by decide) d p none m t⟩
  | cons c s ih =>
    have more (d e : Nat) (m k : Inside) (h : ∀ p t, partsFrom ',' d p m (c :: (s ++ t)) =
        consFirst c (partsFrom ',' e (some c) k (s ++ t))) :
        ∃ ws w d' m', Cuts d m (c :: s) ws w d' m' := by
      obtain ⟨ws, w, d', m', hw⟩ := ih e k
      cases ws with
      | nil => exact ⟨[], c :: w, d', m', fun p t => by rw [List.cons_append, h, hw]; rfl⟩
      | cons v ws => exact ⟨(c :: v) :: ws, w, d', m', fun p t => by rw [List.cons_append, h, hw]; rfl⟩
    cases m with
    | lost => exact more d d .lost .lost fun p t => by rw [partsFrom]
    | literal l =>
      cases hl : l.step c with
      | inside k => exact more d d (.literal l) (.literal k) fun p t => by simp only [partsFrom, hl]
      | closed => exact more d d (.literal l) .plain fun p t => by simp only [partsFrom, hl]
      | broken => exact more d d (.literal l) .lost fun p t => by simp only [partsFrom, hl]
    | plain =>
      cases hl : Literal.open? c with
      | some l => exact more d d .plain (.literal l) fun p t => by simp only [partsFrom, hl]
      | none =>
        by_cases ho : c = '(' ∨ c = '[' ∨ c = '{'
        · exact more d (d + 1) .plain .plain fun p t => by simp only [partsFrom, hl, ho, if_true]
        by_cases he : c = ')' ∨ c = ']' ∨ c = '}'
        · exact more d (d - 1) .plain .plain fun p t => by
            simp only [partsFrom, hl, ho, he, if_true, if_false]
        by_cases hc : c = ',' ∧ d = 0
        · obtain ⟨rfl, rfl⟩ := hc
          obtain ⟨ws, w, d', m', hw⟩ := ih 0 .plain
          exact ⟨[] :: ws, w, d', m', fun p t => by
            rw [List.cons_append, partsFrom_cut (.inl rfl), parts, hw]; rfl⟩
        · refine more d d .plain .plain fun p t => ?_
          have kept : ¬(c = ',' ∧ d = 0 ∧ isCompound ',' p (s ++ t).head? = false) :=
            fun h => hc ⟨h.1, h.2.1⟩
          simp only [partsFrom, hl, ho, he, kept, if_false]

theorem length_of_mem_identifier? (h : n ∈ (identifier? s).toList) :
    n.toList.length ≤ (s.takeWhile isIdentChar).length := by
  rw [Option.mem_toList] at h
  unfold identifier? at h
  split at h
  · simp at h
  · obtain rfl := Option.some.inj h
    rw [String.toList_ofList]

theorem length_of_mem_targetNames (h : n ∈ targetNames s) : n.toList.length ≤ s.length := by
  fun_induction targetNames s with
  | case1 s hp =>
    have bare := length_bareTarget_le s
    have word := (List.takeWhile_prefix isIdentChar (l := bareTarget s)).length_le
    have name := length_of_mem_identifier? h
    omega
  | case2 s inner object hp ih =>
    obtain ⟨e, -, he⟩ := List.mem_flatMap.mp h
    have name := ih e he
    have element := length_elementTarget_le object e.1
    have part := length_of_mem_parts e.2
    have inside := length_of_pattern? hp
    have bare := length_bareTarget_le s
    omega

theorem dropDots_append_cons (hc : c ≠ '.') (s t : List Char) :
    dropDots (s ++ c :: t) = dropDots s ++ c :: t := by
  fun_induction dropDots s with
  | case1 s ih => exact ih
  | case2 s h =>
    unfold dropDots
    split
    · rename_i u hu
      match s, h, hu with
      | [], _, hu => exact absurd (List.cons.inj hu).1 hc
      | [x], _, hu => exact absurd (List.cons.inj (List.cons.inj hu).2).1 hc
      | [x, y], _, hu => exact absurd (List.cons.inj (List.cons.inj (List.cons.inj hu).2).2).1 hc
      | x :: y :: z :: s, h, hu =>
        simp only [List.cons_append, List.cons.injEq] at hu
        obtain ⟨rfl, rfl, rfl, -⟩ := hu
        exact absurd rfl (h s)
    · rfl

theorem exists_bareTarget_comma (hr : ∀ c ∈ r, c ≠ '}' ∧ c ≠ ']') :
    ∃ v u, v.length ≤ w.length ∧ (∀ c ∈ u, c ≠ '}' ∧ c ≠ ']') ∧
      bareTarget (w ++ ',' :: r) = v ++ ',' :: u := by
  obtain ⟨x, -, hx⟩ := exists_dropEndWhile isBlank r
  refine ⟨dropDots (trimStart w), trimEnd r, ?_, fun c hc => hr c ?_, ?_⟩
  · have dots := length_dropDots_le (trimStart w)
    have blanks := (List.dropWhile_suffix isBlank (l := w)).length_le
    exact Nat.le_trans dots blanks
  · rw [hx]
    exact List.mem_append_left _ hc
  · rw [bareTarget, trim, trimStart, dropWhile_append_cons (by decide), trimEnd,
      dropEndWhile_append_cons (by decide), dropDots_append_cons (by decide)]
    rfl

/-- A text is no pattern if none ends behind a comma of it. -/
theorem pattern?_comma (hr : ∀ c ∈ r, c ≠ '}' ∧ c ≠ ']') : pattern? (w ++ ',' :: r) = none := by
  have last : ∀ c ∈ (',' :: r).getLast?, c ≠ '}' ∧ c ≠ ']' := by
    intro c hc
    rcases List.mem_cons.mp (List.mem_of_getLast? hc) with rfl | hc
    · decide
    · exact hr c hc
  have between (o e : Char) (ho : o ≠ ',') (he : ∀ c ∈ (',' :: r).getLast?, c ≠ e) :
      between? o e (w ++ ',' :: r) = none := by
    cases w with
    | nil => simp [between?, ho.symm]
    | cons c w =>
      have ends : (w ++ ',' :: r).getLast? ≠ some e := by
        rw [List.getLast?_append_of_ne_nil _ (List.cons_ne_nil ',' r)]
        exact fun hl => he e hl rfl
      rw [List.cons_append, between?, if_neg fun h => ends h.2]
  rw [pattern?, between '{' '}' (by decide) fun c hc => (last c hc).1,
    between '[' ']' (by decide) fun c hc => (last c hc).2]
  rfl

theorem takeWhile_isIdentChar_comma (w r : List Char) :
    (w ++ ',' :: r).takeWhile isIdentChar = w.takeWhile isIdentChar := by
  rw [List.takeWhile_append]
  split
  · rename_i hl
    rw [List.takeWhile_cons_of_neg (by decide), List.append_nil,
      (List.takeWhile_prefix isIdentChar).eq_of_length hl]
  · rfl

/-- Where no pattern ends behind a comma, a name ends in front of it. -/
theorem length_of_mem_names_comma (hr : ∀ c ∈ r, c ≠ '}' ∧ c ≠ ']')
    (h : n ∈ targetNames (w ++ ',' :: r)) : n.toList.length ≤ w.length := by
  obtain ⟨v, u, hv, hu, bare⟩ := exists_bareTarget_comma (w := w) hr
  have pattern : pattern? (bareTarget (w ++ ',' :: r)) = none := bare ▸ pattern?_comma hu
  rw [targetNames] at h
  split at h
  · have name := length_of_mem_identifier? h
    have word := (List.takeWhile_prefix isIdentChar (l := v)).length_le
    rw [bare, takeWhile_isIdentChar_comma] at name
    omega
  · rename_i hp
    simp [pattern] at hp

/-- Behind a comma that is not cut, no name is taken that is longer than the text in front of it. -/
theorem length_of_mem_firstPart_comma (hr : ∀ c ∈ r, c ≠ '}' ∧ c ≠ ']')
    (h : n ∈ targetNames (firstPart '=' (w ++ ',' :: r))) : n.toList.length ≤ w.length := by
  obtain ⟨v, vs, hv, x, hx⟩ := exists_partsFrom '=' 0 none .plain (w ++ ',' :: r)
  have first : firstPart '=' (w ++ ',' :: r) = v := by
    rw [firstPart, parts, hv]
    rfl
  rw [first] at h
  rcases List.append_eq_append_iff.mp hx with ⟨u, rfl, -⟩ | ⟨u, rfl, hu⟩
  · have name := length_of_mem_targetNames h
    rw [List.length_append]
    omega
  · cases u with
    | nil =>
      rw [List.append_nil] at h
      exact length_of_mem_targetNames h
    | cons c u =>
      obtain ⟨rfl, rfl⟩ := List.cons.inj hu
      exact length_of_mem_names_comma (fun c hc => hr c (List.mem_append_left _ hc)) h

/-- The splitter is outside everything behind an initialiser, and takes no name out of it. -/
structure Inert (e : List Char) : Prop where
  ends : ∀ t, parts ',' (e ++ ',' :: t) = parts ',' e ++ parts ',' t
  nameless : ∀ w ∈ (parts ',' e).tail, targetNames (firstPart '=' w) = []

theorem inert_of_spans (h : Spans ',' 0 .plain e 0 .plain) : Inert e := by
  have whole := parts_of_spans h
  refine ⟨fun t => ?_, by simp [whole]⟩
  rw [parts_append_comma h, whole, List.singleton_append]

def declarator (a e : List Char) : List Char := a ++ (" = ".toList ++ e)

theorem declarator_append (a e s : List Char) : declarator a e ++ s = declarator a (e ++ s) := by
  simp only [declarator, List.append_assoc]

def second (b : List Char) : List Char := ',' :: ' ' :: declarator b ['1']

theorem not_mem_second (hb : IsIdentifier b) (hc : c ∈ [',', '}', ']']) :
    c ∉ ' ' :: declarator b ['1'] := by
  have marks : ∀ c ∈ [',', '}', ']'], isIdentChar c = false ∧ c ∉ " = 1".toList :=
    forall_mem_of_all (by decide)
  obtain ⟨ident, rest⟩ := marks c hc
  change c ∉ ' ' :: (b ++ " = 1".toList)
  simp only [List.mem_cons, List.mem_append, not_or]
  refine ⟨?_, fun h => ?_, rest⟩
  · rintro rfl
    exact rest (by decide)
  · simp [hb.2 c h] at ident

theorem names_second (hb : IsIdentifier b) :
    (parts ',' (' ' :: declarator b ['1'])).flatMap (fun d => targetNames (firstPart '=' d)) =
      [String.ofList b] := by
  have name := targetNames_firstPart (b := [' ']) (n := b) (r := " = 1".toList)
    isSpace_of_mem_singleton hb.isWord fun _ _ _ => forall_head?_cons (by decide)
  rw [hb.identifier?] at name
  rw [parts, partsFrom_of_not_mem (not_mem_second hb (by simp)), List.flatMap_singleton]
  exact name

/-- A declarator binds its name first; what else is read is read out of its initialiser. -/
theorem declaratorNames_cons (ha : IsIdentifier a) (s : List Char) :
    declaratorNames (declarator a s) =
      String.ofList a :: (parts ',' s).tail.flatMap fun d => targetNames (firstPart '=' d) := by
  have head : Spans ',' 0 .plain (a ++ " = ".toList) 0 .plain :=
    (spans_word ha.isWord (by decide)).append <| spans_all
      (forall_mem_of_all (p := fun c => Scan.isIdle c = true ∨ isSpace c = true) (by decide))
      fun c hc => .inl (by rintro rfl; exact absurd hc (by decide))
  obtain ⟨q, hq⟩ := head none s
  obtain ⟨w, ws, hw, -⟩ := exists_partsFrom ',' 0 none .plain s
  have cut : parts ',' (declarator a s) = (a ++ (" = ".toList ++ w)) :: ws := by
    rw [declarator, ← List.append_assoc, parts, hq, partsFrom_previous (by decide) 0 q none, hw,
      foldr_consFirst, List.append_assoc]
  have name := targetNames_firstPart (b := []) (n := a) (r := " = ".toList ++ w) (by simp) ha.isWord
    fun _ _ _ => forall_head?_cons (by decide)
  rw [List.nil_append, ha.identifier?] at name
  rw [declaratorNames, cut, List.flatMap_cons, name, parts, hw]
  rfl

theorem declaratorNames_second (he : ∀ t, parts ',' (e ++ ',' :: t) = parts ',' e ++ parts ',' t)
    (ha : IsIdentifier a) (hb : IsIdentifier b) :
    declaratorNames (declarator a e ++ second b) = String.ofList a ::
      ((parts ',' e).tail.flatMap (fun d => targetNames (firstPart '=' d)) ++ [String.ofList b]) := by
  obtain ⟨w, ws, hw, -⟩ := exists_partsFrom ',' 0 none .plain e
  have whole : parts ',' e = w :: ws := hw
  rw [declarator_append, declaratorNames_cons ha, second, he, whole, List.cons_append,
    List.tail_cons, List.flatMap_append, names_second hb, List.tail_cons]

/-- A second name is read behind an inert initialiser, and no other. -/
theorem Inert.declaratorNames (h : Inert e) (ha : IsIdentifier a) (hb : IsIdentifier b) :
    declaratorNames (declarator a e ++ second b) = [String.ofList a, String.ofList b] := by
  rw [declaratorNames_second h.ends ha hb, List.flatMap_eq_nil_iff.mpr h.nameless, List.nil_append]

/-- Where the comma is not cut, a second name is missed if it is longer than the initialiser. -/
theorem inert_of_declaratorNames (ha : IsIdentifier a) (h : ∀ b, IsIdentifier b →
    declaratorNames (declarator a e ++ second b) = [String.ofList a, String.ofList b]) :
    Inert e := by
  let b := List.replicate (e.length + 1) 'b'
  have hb : IsIdentifier b := ⟨by simp [b], fun c hc => by rw [(List.mem_replicate.mp hc).2]; decide⟩
  have names := h b hb
  obtain ⟨ws, w, d, m, hw⟩ := exists_cuts 0 .plain e
  have whole : parts ',' e = ws ++ [w] := by
    have alone := hw none []
    rwa [List.append_nil, partsFrom, foldr_consFirst, List.append_nil] at alone
  by_cases outside : d = 0 ∧ m = .plain
  · obtain ⟨rfl, rfl⟩ := outside
    have ends (t : List Char) : parts ',' (e ++ ',' :: t) = parts ',' e ++ parts ',' t := by
      rw [parts, hw, partsFrom_cut (.inl rfl), foldr_consFirst, List.append_nil, whole,
        List.append_assoc, List.singleton_append]
    rw [declaratorNames_second ends ha hb] at names
    exact ⟨ends, List.flatMap_eq_nil_iff.mp (List.append_left_eq_self.mp (List.cons.inj names).2)⟩
  · have kept := partsFrom_comma_inside (p := none) outside (not_mem_second hb (by simp))
    have all : parts ',' (e ++ second b) = ws ++ [w ++ second b] := by
      rw [parts, second, hw, kept, foldr_consFirst]
    rw [declarator_append, declaratorNames_cons ha, all] at names
    have mem := (List.cons.inj names).2 ▸ List.mem_singleton_self (String.ofList b)
    obtain ⟨v, hv, name⟩ := List.mem_flatMap.mp mem
    have length : (String.ofList b).toList.length = e.length + 1 := by simp [b]
    have part {v : List Char} (hv : v ∈ ws ++ [w]) : v.length ≤ e.length :=
      length_of_mem_parts (whole ▸ hv)
    have short : (String.ofList b).toList.length ≤ e.length := by
      rcases List.mem_append.mp (List.mem_of_mem_tail hv) with hv | hv
      · have first := length_firstPart_le '=' v
        have name := length_of_mem_targetNames name
        have part := part (List.mem_append_left _ hv)
        omega
      · obtain rfl := List.mem_singleton.mp hv
        have free : ∀ c ∈ ' ' :: declarator b ['1'], c ≠ '}' ∧ c ≠ ']' := by
          refine fun c hc => ⟨?_, ?_⟩
          · rintro rfl
            exact not_mem_second hb (by simp) hc
          · rintro rfl
            exact not_mem_second hb (by simp) hc
        have part := part (v := w) (by simp)
        exact Nat.le_trans (length_of_mem_firstPart_comma free name) part
    omega

namespace Scan

variable {st u : Scan}

theorem lineComment_of_step (h : st.step ';' r = .ok (.more u)) (hu : u.mode = .lineComment) :
    st.mode = .lineComment := by
  have plain {v : Scan} (h : v.plainStep ';' r = .ok (.more u)) : u.mode = .plain := by
    unfold plainStep at h
    simp only [Literal.open?, Char.reduceEq, or_self, if_false, false_and, true_and] at h
    repeat' split at h
    all_goals
      cases h
      try rfl
  have regex {x y : Bool} (h : st.regexStep x y ';' = .ok (.more u)) : u.mode ≠ .lineComment := by
    simp only [regexStep, Char.reduceEq, false_and, if_false] at h
    split at h
    all_goals
      cases h
      simp
  unfold step at h
  split at h
  case h_1 => simp [plain h] at hu
  case h_2 =>
    simp only [Char.reduceEq, if_false] at h
    split at h
    · exact absurd hu (regex h)
    · simp [plain h] at hu
  case h_3 hm => exact hm
  case h_4 =>
    simp only [Char.reduceEq, and_false, if_false] at h
    cases h
    simp at hu
  case h_5 =>
    split at h
    all_goals
      cases h
      try simp [push] at hu
  case h_6 => exact absurd hu (regex h)
  case h_7 =>
    split at h
    · cases h
      simp at hu
    · simp [plain h] at hu

/-- Before its last semicolon a statement is outside everything. -/
theorem rests_of_semicolon (hst : st.Sound) (h : st.statement [';'] = .ok ([';'], [])) : st.Rests := by
  rcases statement_cons.mp h with ⟨u, d, hu, hs, -⟩ | ⟨-, hd, -⟩ | ⟨he, -⟩
  · have rests := finish_iff.mp (statement_nil.mp hs).1
    have brackets := (step_brackets hu (by decide)).symm.trans rests.brackets
    have opens (ho : IsOpenMode u.mode) : st.Rests := by
      have before := openMode_of_step hst hu ho (by decide) (by simp)
      rw [step_semicolon brackets before] at hu
      simp at hu
    rcases rests.mode with hm | hm | hm | hm
    · exact opens (.inl hm)
    · exact opens (.inr (.inl hm))
    · exact ⟨brackets, .inr (.inr (.inl (lineComment_of_step hu hm)))⟩
    · exact opens (.inr (.inr hm))
  · simp at hd
  · obtain ⟨-, hb, hm | hm | hm⟩ := step_eq_endsWith he
    · exact ⟨hb, .inl hm⟩
    · exact ⟨hb, .inr (.inl hm)⟩
    · exact ⟨hb, .inr (.inr (.inr hm))⟩

theorem Rests.statement_second (h : st.Rests) (hb : IsIdentifier b) :
    st.statement (second b ++ [';']) = .ok (second b ++ [';'], []) := by
  have soft : ∀ c ∈ second b, isSoft [] c := by
    intro c hc
    rw [second, declarator, List.mem_cons, List.mem_cons, List.mem_append] at hc
    rcases hc with rfl | rfl | hc | hc
    · exact .inl (by decide)
    · exact .inr ⟨by decide, fun h => absurd h (by decide)⟩
    · exact .inl (isIdle_of_isIdentChar (hb.2 c hc))
    · have rest : ∀ c ∈ " = 1".toList, isIdle c = true ∨ isSpace c = true ∧ c ≠ '\n' :=
        forall_mem_of_all (by decide)
      exact (rest c hc).imp_right fun h => ⟨h.1, fun hn => absurd hn h.2⟩
  by_cases line : st.mode = .lineComment
  · have noFeed : ∀ c ∈ second b ++ [';'], c ≠ '\n' := by
      rintro c hc rfl
      rcases List.mem_append.mp hc with hc | hc
      · rcases soft '\n' hc with hi | ⟨-, hn⟩
        · exact absurd hi (by decide)
        · exact hn rfl rfl
      · exact absurd hc (by decide)
    obtain ⟨u, hu, hm, hbr, -⟩ := @reads_lineComment st _ [] line noFeed
    have rests : u.Rests := ⟨hbr.trans h.brackets, .inr (.inr (.inl hm))⟩
    have whole := hu.statement (statement_nil.mpr ⟨finish_iff.mpr rests, rfl, rfl⟩)
    rwa [List.append_nil] at whole
  · have opens : IsOpenMode st.mode := by
      rcases h.mode with hm | hm | hm | hm
      · exact .inl hm
      · exact .inr (.inl hm)
      · exact absurd hm line
      · exact .inr (.inr hm)
    obtain ⟨u, hu, settled⟩ := takes_soft soft st.settle [';'] ⟨rfl, h.brackets⟩
    have reads : Reads st (second b) [';'] u := by
      cases hu with
      | cons hs hr =>
        refine .cons ?_ hr
        rwa [step_settle opens (fun _ => by decide) fun _ => by decide]
    have closes := reads.closes.trans (closes_semicolon_iff.mpr ⟨settled.brackets, .inl settled.mode⟩)
    have whole := statement_of_closes closes []
    rwa [List.append_nil] at whole

end Scan

theorem statement_of_ofText? {i : Item} (hc : ¬(isSpace c ∨ c = ';')) (hk : Chunk.comment? (c :: s) = none)
    (h : EsModule.ofText? (c :: s) = .ok [i]) (hi : i.text = c :: s) :
    Scan.start.statement (c :: s) = .ok (c :: s, []) := by
  cases hks : chunks 0 (c :: s) with
  | error f => simp [EsModule.ofText?, hks, Except.map] at h
  | ok ks =>
    simp only [EsModule.ofText?, hks, Except.map, Except.ok.injEq] at h
    obtain ⟨x, y, js, -, -, hxy, ⟨comment, -⟩ | ⟨-, statement, rfl⟩⟩ := exists_of_chunks hc hks
    · simp [hk] at comment
    · rw [List.map_cons] at h
      have text : dropEndWhile isSpace x = c :: s := (congrArg Item.text (List.cons.inj h).1).trans hi
      obtain ⟨z, -, hz⟩ := exists_dropEndWhile isSpace x
      have lengths := congrArg List.length hxy
      have longer := congrArg List.length hz
      rw [text, List.length_append] at longer
      rw [List.length_append] at lengths
      obtain rfl : y = [] := List.length_eq_zero_iff.mp (by omega)
      rw [List.append_nil] at hxy
      rwa [hxy] at statement

/-- A second declarator behind a declaration that is read as one item belongs to it. -/
theorem exists_ofText?_second {i : Item} (ha : IsIdentifier a) (hb : IsIdentifier b)
    (h : EsModule.ofText? (exportConst (declarator a e)) = .ok [i])
    (hi : i.text = exportConst (declarator a e)) :
    ∃ j, EsModule.ofText? (exportConst (declarator a e ++ second b)) = .ok [j] ∧
      j.kind = .declaration (declaratorNames (declarator a e ++ second b)) := by
  obtain ⟨lead, hlead⟩ := exists_exportConst
  rw [hlead] at h hi
  have statement := statement_of_ofText? (by decide) (comment?_exportConst _) h hi
  rw [← List.append_assoc, ← List.cons_append] at statement
  obtain ⟨u, reads, rest⟩ := Scan.exists_reads_statement statement (by simp)
  have rests := Scan.rests_of_semicolon (reads.sound Scan.sound_start) rest
  have keywords (x : List Char) (hx : startsStatement (x ++ (second b ++ [';'])) = true) :
      startsStatement (x ++ [';']) = true :=
    startsStatement_exchange (forall_head?_cons (by decide)) (forall_head?_cons (by decide)) hx
  have whole := (reads.exchange keywords).statement (rests.statement_second hb)
  have text : 'e' :: (lead ++ declarator a e) ++ (second b ++ [';']) =
      exportConst (declarator a e ++ second b) := by
    rw [hlead, List.cons_append, List.append_assoc, List.append_assoc]
  rw [text] at whole
  refine ofText?_exportConst whole ?_ fun c hc => ?_
  · rw [declarator, List.append_assoc, List.append_assoc]
    exact ha.isWord.head_not_blank _
  · have last : second b = ',' :: ' ' :: (b ++ " = ".toList) ++ ['1'] := by simp [second, declarator]
    rw [last, ← List.append_assoc] at hc
    exact forall_getLast?_concat (p := fun c => (c == ';') = false) (by decide) c hc

def isRegexMode : Mode → Bool
  | .slash _ => true
  | .regex _ _ => true
  | .flags => true
  | _ => false

/-- What the splitter does not know: comments, and the literals of regular expressions. -/
inductive IsHidden : List Char → Prop where
  | comment {w : List Char} (h : Chunk.comment? w = some (some (w, []))) : IsHidden w
  | regex {s : List Char} {u : Scan} (h : Scan.Reads (Scan.start.begin '/' (.slash true)) s [] u)
      (hs : (Scan.start.begin '/' (.slash true)).staysIn isRegexMode s = true) (hu : u.mode = .flags) :
      IsHidden ('/' :: s)

/-- An expression inside of `d` brackets, without bare commas. The splitter comes out of what it does not
know as it went in, and makes no cut there. -/
inductive Expression : Nat → List Char → Prop where
  | nil {d : Nat} : Expression d []
  | cons {d : Nat} {c : Char} {e : List Char}
      (hc : c ∉ ['"', '\'', '`', '(', '[', '{', ')', ']', '}']) (hd : c ≠ ',' ∨ d ≠ 0)
      (he : Expression d e) : Expression d (c :: e)
  | quoted {d : Nat} {c q : Char} {l k : Literal} {x e : List Char} (ho : Literal.open? c = some l)
      (hx : l.Reads x k) (hq : k.step q = .closed) (he : Expression d e) :
      Expression d (c :: (x ++ [q]) ++ e)
  | group {d : Nat} {o c : Char} {x e : List Char} (ho : (o, c) ∈ Scan.bracketPairs)
      (hx : Expression (d + 1) x) (he : Expression d e) : Expression d (o :: (x ++ [c]) ++ e)
  | hidden {d : Nat} {w e : List Char} (hw : IsHidden w) (hx : Spans ',' d .plain w d .plain)
      (he : Expression d e) : Expression d (w ++ e)

theorem Expression.spans (h : Expression d e) : Spans ',' d .plain e d .plain := by
  induction h with
  | nil => exact fun p t => ⟨p, rfl⟩
  | cons hc hd _ ih => exact (spans_char hc hd).append ih
  | quoted ho hx hq _ ih => exact (spans_quoted ho hx hq).append ih
  | group ho _ _ ihx ih => exact (spans_group ho ihx).append ih
  | hidden _ hx _ ih => exact hx.append ih

/-- Whatever second name stands behind the declarator, the declaration is read as one item with the two
names. -/
def NamesBoth (a e : List Char) : Prop :=
  ∀ b, IsIdentifier b → ∃ j, EsModule.ofText? (exportConst (declarator a e ++ second b)) = .ok [j] ∧
    j.kind = .declaration [String.ofList a, String.ofList b]

/-- An initialiser that is read as one item with its declaration adds no name to it where the two lexers
agree on what they do not cut; in general, if and only if it is inert. -/
theorem names_of_initialiser {i : Item} (ha : IsIdentifier a)
    (h : EsModule.ofText? (exportConst (declarator a e)) = .ok [i])
    (hi : i.text = exportConst (declarator a e)) :
    (Expression 0 e → NamesBoth a e) ∧ (NamesBoth a e ↔ Inert e) := by
  have both : NamesBoth a e ↔ Inert e := by
    constructor
    · refine fun names => inert_of_declaratorNames ha fun b hb => ?_
      obtain ⟨j, hj, kind⟩ := names b hb
      obtain ⟨j', hj', kind'⟩ := exists_ofText?_second ha hb h hi
      obtain rfl : j' = j := by simpa using hj'.symm.trans hj
      simpa using kind'.symm.trans kind
    · intro inert b hb
      obtain ⟨j, hj, kind⟩ := exists_ofText?_second ha hb h hi
      exact ⟨j, hj, inert.declaratorNames ha hb ▸ kind⟩
  exact ⟨fun he => both.mpr (inert_of_spans he.spans), both⟩

end

/-- Behind a call with commas in a regular expression and a string, and a comment. -/
theorem names_of_initialiser_call : ∃ (e : List Char) (i : Item),
    e = "f(/[,]/, \"\x7d,\") /* b */".toList ∧
      EsModule.ofText? (exportConst (declarator ['a'] e)) = .ok [i] ∧
      i.text = exportConst (declarator ['a'] e) ∧ Expression 0 e ∧ NamesBoth ['a'] e := by
  let e := "f(/[,]/, \"\x7d,\") /* b */".toList
  have closes : Scan.start.closes (exportConst (declarator ['a'] e)) = true := by decide +kernel
  have read := ofText?_of_closes (by decide) (by decide) closes
  have regex : IsHidden "/[,]/".toList :=
    .regex (.cons rfl (.cons rfl (.cons rfl (.cons rfl .nil)))) rfl rfl
  have comma : Spans ',' 2 .plain [','] 2 .plain := spans_char (by decide) (by decide)
  have class' : Spans ',' 1 .plain "[,]".toList 1 .plain := spans_group (by decide) comma
  have slash : Spans ',' 1 .plain ['/'] 1 .plain := spans_char (by decide) (by decide)
  have crossed : Spans ',' 1 .plain "/[,]/".toList 1 .plain := slash.append (class'.append slash)
  have comment : IsHidden "/* b */".toList := .comment (by decide)
  have passed : Spans ',' 0 .plain "/* b */".toList 0 .plain :=
    spans_chars (forall_mem_of_all (by decide)) (forall_mem_of_all (by decide))
  have arguments : Expression 1 "/[,]/, \"\x7d,\"".toList :=
    .hidden regex crossed <| .cons (by decide) (by decide) <| .cons (by decide) (by decide) <|
      .quoted (c := '"') (x := "\x7d,".toList) (q := '"') rfl (.cons rfl (.cons rfl .nil)) rfl .nil
  have expression : Expression 0 e :=
    .cons (by decide) (by decide) <| .group (o := '(') (c := ')') (by decide) arguments <|
      .cons (by decide) (by decide) <| .hidden comment passed .nil
  exact ⟨e, _, rfl, read, rfl, expression,
    (names_of_initialiser (by decide) read rfl).1 expression⟩

/-- A comma in a regular expression is cut, and what follows it there is read as a name. -/
theorem name_in_regex : ∃ (e : List Char) (i j : Item), e = "/,x/".toList ∧ IsHidden e ∧
    EsModule.ofText? (exportConst (declarator ['a'] e)) = .ok [i] ∧
      i.text = exportConst (declarator ['a'] e) ∧
      EsModule.ofText? (exportConst (declarator ['a'] e ++ second ['b'])) = .ok [j] ∧
      j.kind = .declaration ["a", "x", "b"] := by
  let e := "/,x/".toList
  have closes : Scan.start.closes (exportConst (declarator ['a'] e)) = true := by decide +kernel
  have closes' : Scan.start.closes (exportConst (declarator ['a'] e ++ second ['b'])) = true := by
    decide +kernel
  refine ⟨e, _, _, rfl, .regex (.cons rfl (.cons rfl (.cons rfl .nil))) rfl rfl,
    ofText?_of_closes (by decide) (by decide) closes, rfl,
    ofText?_of_closes (by decide) (by decide) closes', ?_⟩
  decide +kernel

end StyleExports.EsModule
