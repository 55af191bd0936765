import StyleExports.Proofs.EsModule.Layout
import StyleExports.Proofs.Fragment

namespace StyleExports.EsModule

open Text

/-- An identifier, a string, or text in brackets. -/
inductive IsTerm : List Char → Prop where
  | name {s : List Char} (h : IsIdentifier s) : IsTerm s
  | string {s : List Char} (h : Literal.string.Reads s Literal.string) : IsTerm ('"' :: (s ++ ['"']))
  | group {o e : Char} {s : List Char} (ho : (o, e) ∈ Scan.bracketPairs) (hs : Paired s) :
      IsTerm (o :: (s ++ [e]))

namespace IsTerm

variable {s bs : List Char} {sep : Char} {d : Nat}

theorem spans (h : IsTerm s) (hs : isIdentChar sep = false) : Spans sep d .plain s d .plain := by
  cases h with
  | name h =>
    exact spans_all (fun c hc => .inl (Scan.isIdle_of_isIdentChar (h.2 c hc)))
      fun c hc => .inl (ne_of_class (h.2 c hc) hs)
  | string h => exact spans_quoted rfl h Literal.step_string_closing
  | group ho hs => exact spans_group ho (spans_paired hs d)

theorem takes (h : IsTerm s) : Scan.Takes (Scan.Settled bs) s (Scan.Settled bs) := by
  cases h with
  | name h => exact Scan.takes_soft fun c hc => .inl (Scan.isIdle_of_isIdentChar (h.2 c hc))
  | string h => exact Scan.takes_quoted rfl h Literal.step_string_closing
  | group ho hs =>
    have inner : Scan.Takes (Scan.Settled bs) _ (Scan.Ready bs) :=
      Scan.takes_group ho (Scan.takes_paired hs (by simp))
    exact inner.imp (fun _ h => h) fun _ h => h.settled

theorem paired (h : IsTerm s) : Paired s := by
  cases h with
  | name h => exact .of_all fun c hc => .inl (Scan.isIdle_of_isIdentChar (h.2 c hc))
  | string h =>
    have quoted := Paired.quoted (c := '"') rfl h Literal.step_string_closing .nil
    rwa [List.append_nil] at quoted
  | group ho hs =>
    have group := Paired.group ho hs .nil
    rwa [List.append_nil] at group

theorem ends (h : IsTerm s) : ∃ t c, s = t ++ [c] ∧ isBlank c = false ∧ (c == ';') = false := by
  cases h with
  | name h =>
    have last := h.2 _ (List.getLast_mem h.1)
    exact ⟨_, _, (List.dropLast_append_getLast h.1).symm,
      isBlank_of_isWordChar (by rw [isWordChar, last, Bool.true_or]),
      beq_eq_false_iff_ne.mpr (ne_of_class last (by decide))⟩
  | @string u h => exact ⟨'"' :: u, '"', rfl, by decide, by decide⟩
  | @group o e u ho hs =>
    refine ⟨o :: u, e, rfl, ?_⟩
    rcases Scan.mem_bracketPairs.mp ho with ⟨-, rfl⟩ | ⟨-, rfl⟩ | ⟨-, rfl⟩ <;> decide

theorem begins (h : IsTerm s) : ∃ c t, s = c :: t ∧ isBlank c = false ∧ c ≠ '.' := by
  cases h with
  | name h =>
    obtain ⟨c, t, rfl⟩ := List.exists_cons_of_ne_nil h.1
    have first := h.2 c (by simp)
    exact ⟨c, t, rfl, isBlank_of_isWordChar (by rw [isWordChar, first, Bool.true_or]),
      ne_of_class first (by decide)⟩
  | string h => exact ⟨'"', _, rfl, by decide, by decide⟩
  | @group o e u ho hs =>
    refine ⟨o, _, rfl, ?_⟩
    rcases Scan.mem_bracketPairs.mp ho with ⟨rfl, -⟩ | ⟨rfl, -⟩ | ⟨rfl, -⟩ <;> decide

/-- However deep, the value of an export is a term. -/
theorem literal (v : Value) : IsTerm v.literal := by
  rcases v.literal_cases with ⟨x, hx⟩ | ⟨u, hu, hv⟩
  · obtain ⟨w, hw, hr⟩ := Literal.exists_reads_encodeBody x
    rw [hx, Quoted.encode, hw]
    exact .string hr
  · rw [hv]
    exact .group (by decide) hu.paired

end IsTerm

structure Name where
  chars : List Char
  isIdentifier : IsIdentifier chars

def Name.string (n : Name) : String := String.ofList n.chars

/-- A key, a default or an initialiser. Strings may be spelled in any way, and text in brackets be any in
which brackets and quotation marks come in pairs, as it is in the literals of JSON. -/
structure Term where
  chars : List Char
  isTerm : IsTerm chars

def Term.literal (v : Value) : Term := ⟨v.literal, .literal v⟩

mutual

inductive Pattern where
  | name (n : Name)
  | object (fields : Fields)
  | array (elements : Elements)

inductive Fields where
  | nil
  | rest (n : Name)
  | shorthand (n : Name) (default : Option Term) (more : Fields)
  | keyed (key : Term) (target : Pattern) (default : Option Term) (more : Fields)

inductive Elements where
  | nil
  | rest (target : Pattern)
  | hole (more : Elements)
  | element (target : Pattern) (default : Option Term) (more : Elements)

end

def defaultText : Option Term → List Char
  | none => []
  | some t => " = ".toList ++ t.chars

/-- A hole at the end has a comma of its own behind it. -/
def behindHole : List (List Char) → List (List Char)
  | [] => [[]]
  | ws => ws

mutual

def Pattern.text : Pattern → List Char
  | .name n => n.chars
  | .object fields => '{' :: ([' '] ++ (join [',', ' '] fields.texts ++ [' ']) ++ ['}'])
  | .array elements => '[' :: (join [',', ' '] elements.texts ++ [']'])

def Fields.texts : Fields → List (List Char)
  | .nil => []
  | .rest n => ["...".toList ++ n.chars]
  | .shorthand n default more => (n.chars ++ defaultText default) :: more.texts
  | .keyed key target default more =>
    (key.chars ++ (':' :: ' ' :: (target.text ++ defaultText default))) :: more.texts

def Elements.texts : Elements → List (List Char)
  | .nil => []
  | .rest target => ["...".toList ++ target.text]
  | .hole more => [] :: behindHole more.texts
  | .element target default more => (target.text ++ defaultText default) :: more.texts

end

mutual

def Pattern.names : Pattern → List String
  | .name n => [n.string]
  | .object fields => fields.names
  | .array elements => elements.names

def Fields.names : Fields → List String
  | .nil => []
  | .rest n => [n.string]
  | .shorthand n _ more => n.string :: more.names
  | .keyed _ target _ more => target.names ++ more.names

def Elements.names : Elements → List String
  | .nil => []
  | .rest target => target.names
  | .hole more => more.names
  | .element target _ more => target.names ++ more.names

end

section

variable {object : Bool} {w b e x dots : List Char} {ws : List (List Char)} {xs ys : List String}

/-- A term that is read as a target with these names, with any blanks around it and with the dots of a
rest element in front. -/
structure IsTarget (w : List Char) (xs : List String) : Prop where
  isTerm : IsTerm w
  names : ∀ b dots e, (∀ c ∈ b, isSpace c = true) → dots = [] ∨ dots = "...".toList →
    (∀ c ∈ e, isSpace c = true) → targetNames (b ++ (dots ++ (w ++ e))) = xs

/-- A text that no list is cut in, and that is read as an element with these names. -/
structure Binds (object : Bool) (w : List Char) (xs : List String) : Prop where
  paired : Paired w
  spans : Spans ',' 0 .plain w 0 .plain
  names : ∀ b e, (∀ c ∈ b, isSpace c = true) → (∀ c ∈ e, isSpace c = true) →
    targetNames (elementTarget object (b ++ (w ++ e))) = xs

inductive BindAll (object : Bool) : List (List Char) → List String → Prop where
  | nil : BindAll object [] []
  | cons {w : List Char} {ws : List (List Char)} {xs ys : List String} (h : Binds object w xs)
      (hs : BindAll object ws ys) : BindAll object (w :: ws) (xs ++ ys)

theorem targetNames_of_pattern {inner : List Char} (h : pattern? (bareTarget w) = some (inner, object)) :
    targetNames w = (parts ',' inner).flatMap fun d => targetNames (elementTarget object d) := by
  rw [targetNames]
  split
  · rename_i hn
    simp [h] at hn
  · rename_i hs
    rw [h] at hs
    cases hs
    simp

theorem bareTarget_term (h : IsTerm w) (hb : ∀ c ∈ b, isSpace c = true)
    (hd : dots = [] ∨ dots = "...".toList) (he : ∀ c ∈ e, isSpace c = true) :
    bareTarget (b ++ (dots ++ (w ++ e))) = w := by
  obtain ⟨c, t, hc, first, point⟩ := h.begins
  obtain ⟨u, l, hl, last, -⟩ := h.ends
  have bare : dropDots w = w := by
    rw [hc]
    unfold dropDots
    split
    · rename_i hp
      exact absurd (List.cons.inj hp).1 point
    · rfl
  have tight : IsTight (dots ++ w) := by
    refine ⟨fun a ha => ?_, fun a ha => ?_⟩
    · rcases hd with rfl | rfl
      · rw [hc] at ha
        exact forall_head?_cons (p := fun a => isBlank a = false) first a ha
      · exact forall_head?_cons (p := fun a => isBlank a = false) (by decide) a ha
    · rw [hl, ← List.append_assoc] at ha
      exact forall_getLast?_concat (p := fun a => isBlank a = false) last a ha
  have trimmed := trim_pad (isBlank_of_spaces hb) tight (isBlank_of_spaces he)
  rw [List.append_assoc, List.append_assoc] at trimmed
  rw [bareTarget, trimmed]
  rcases hd with rfl | rfl
  · exact bare
  · exact (dropDots.eq_1 w).trans bare

theorem targetNames_blank (hb : ∀ c ∈ b, isSpace c = true) :
    targetNames (elementTarget object b) = [] := by
  have whole (sep : Char) (hs : isSpace sep = false) : parts sep b = [b] :=
    parts_of_spans (spans_spaces hb hs)
  have target : elementTarget object b = b := by
    simp [elementTarget, firstPart, lastPart, whole '=' (by decide), whole ':' (by decide)]
  have bare := trim_pad (s := []) (e := []) (isBlank_of_spaces hb) (by decide) (by simp)
  rw [List.append_nil, List.append_nil] at bare
  have empty : bareTarget b = [] := by
    rw [bareTarget, bare]
    rfl
  have none : pattern? (bareTarget b) = none := by
    rw [empty]
    rfl
  rw [target, targetNames]
  split
  · rw [empty]
    rfl
  · rename_i hs
    simp [none] at hs

/-- A list of elements with blanks around it is cut into them. -/
theorem BindAll.names (h : BindAll object ws xs) (hb : ∀ c ∈ b, isSpace c = true)
    (he : ∀ c ∈ e, isSpace c = true) :
    (parts ',' (b ++ (join [',', ' '] ws ++ e))).flatMap
      (fun d => targetNames (elementTarget object d)) = xs := by
  have blanks {s : List Char} (hs : ∀ c ∈ s, isSpace c = true) : Spans ',' 0 .plain s 0 .plain :=
    spans_spaces hs (by decide)
  induction h generalizing b with
  | nil =>
    have both : ∀ c ∈ b ++ e, isSpace c = true := fun c hc => (List.mem_append.mp hc).elim (hb c) (he c)
    change (parts ',' (b ++ e)).flatMap _ = []
    rw [parts_of_spans (blanks both), List.flatMap_singleton, targetNames_blank both]
  | @cons w ws xs ys h hs ih =>
    cases hs with
    | nil =>
      have whole := (blanks hb).append (h.spans.append (blanks he))
      rw [List.append_nil]
      change (parts ',' (b ++ (w ++ e))).flatMap _ = xs
      rw [parts_of_spans whole, List.flatMap_singleton, h.names b e hb he]
    | @cons v vs _ _ hv hvs =>
      have text : b ++ (join [',', ' '] (w :: v :: vs) ++ e) =
          b ++ w ++ ',' :: ([' '] ++ (join [',', ' '] (v :: vs) ++ e)) := by
        simp only [join, List.append_assoc, List.cons_append, List.nil_append]
      have first := h.names b [] hb (by simp)
      rw [List.append_nil] at first
      rw [text, parts_append_comma ((blanks hb).append h.spans), List.flatMap_cons,
        first, ih isSpace_of_mem_singleton]

theorem BindAll.paired (h : BindAll object ws xs) : Paired (join [',', ' '] ws) := by
  have all : ∀ w ∈ ws, Paired w := by
    induction h with
    | nil => simp
    | cons h _ ih => exact List.forall_mem_cons.mpr ⟨h.paired, ih⟩
  exact .join (.of_all (forall_mem_of_all (by decide))) all

theorem firstPart_default (hx : Spans '=' 0 .plain x 0 .plain) (default : Option Term)
    (he : ∀ c ∈ e, isSpace c = true) : ∃ g, (∀ c ∈ g, isSpace c = true) ∧
      firstPart '=' (x ++ (defaultText default ++ e)) = x ++ g := by
  cases default with
  | none =>
    have whole := parts_of_spans (hx.append (spans_spaces he (by decide)))
    refine ⟨e, he, ?_⟩
    change firstPart '=' (x ++ e) = x ++ e
    rw [firstPart, whole]
    rfl
  | some t =>
    obtain ⟨q, hq⟩ := hx none (" = ".toList ++ (t.chars ++ e))
    obtain ⟨v, vs, hv, -⟩ := exists_partsFrom '=' 0 (some '=') .plain (' ' :: (t.chars ++ e))
    have cut : partsFrom '=' 0 q .plain (" = ".toList ++ (t.chars ++ e)) = [' '] :: v :: vs := by
      change partsFrom '=' 0 q .plain (' ' :: '=' :: ' ' :: (t.chars ++ e)) = _
      rw [← hv]
      simp [partsFrom, Literal.open?, isCompound, consFirst]
    refine ⟨[' '], isSpace_of_mem_singleton, ?_⟩
    rw [firstPart, parts, defaultText, List.append_assoc, hq, cut, foldr_consFirst]
    rfl

theorem paired_default (default : Option Term) : Paired (defaultText default) := by
  cases default with
  | none => exact .nil
  | some t => exact (Paired.of_all (forall_mem_of_all (by decide))).append t.isTerm.paired

theorem spans_default (default : Option Term) : Spans ',' 0 .plain (defaultText default) 0 .plain := by
  cases default with
  | none => exact fun p t => ⟨p, rfl⟩
  | some t =>
    have equals : Spans ',' 0 .plain " = ".toList 0 .plain :=
      spans_chars (forall_mem_of_all (by decide)) (forall_mem_of_all (by decide))
    exact equals.append (t.isTerm.spans (by decide))

theorem spans_dots {sep : Char} (hd : dots = [] ∨ dots = "...".toList) (hs : sep ≠ '.') :
    Spans sep 0 .plain dots 0 .plain := by
  refine spans_chars (fun c hc => ?_) fun c hc => .inl ?_
  all_goals rcases hd with rfl | rfl
  · simp at hc
  · obtain rfl : c = '.' := by simpa using hc
    decide
  · simp at hc
  · obtain rfl : c = '.' := by simpa using hc
    exact hs.symm

/-- An element without a key binds what its target does. -/
theorem IsTarget.binds (h : IsTarget w xs) (hd : dots = [] ∨ dots = "...".toList)
    (default : Option Term) : Binds object (dots ++ (w ++ defaultText default)) xs where
  paired := by
    have point : Paired dots := .of_all <| by
      rcases hd with rfl | rfl
      · simp
      · exact forall_mem_of_all (by decide)
    exact point.append (h.isTerm.paired.append (paired_default default))
  spans := (spans_dots hd (by decide)).append
    ((h.isTerm.spans (by decide)).append (spans_default default))
  names := by
    intro b e hb he
    have whole (sep : Char) (hs : isSpace sep = false) (hp : sep ≠ '.') (hi : isIdentChar sep = false) :
        Spans sep 0 .plain (b ++ (dots ++ w)) 0 .plain :=
      (spans_spaces hb hs).append ((spans_dots hd hp).append (h.isTerm.spans hi))
    obtain ⟨g, hg, bound⟩ := firstPart_default (whole '=' (by decide) (by decide) (by decide)) default he
    have colon := parts_of_spans
      ((whole ':' (by decide) (by decide) (by decide)).append (spans_spaces hg (by decide)))
    have text : b ++ (dots ++ (w ++ defaultText default) ++ e) =
        b ++ (dots ++ w) ++ (defaultText default ++ e) := by simp only [List.append_assoc]
    have target : elementTarget object (b ++ (dots ++ (w ++ defaultText default) ++ e)) =
        b ++ (dots ++ (w ++ g)) := by
      rw [elementTarget, text, bound, lastPart, colon]
      simp only [List.append_assoc, List.getLast?_singleton, Option.getD_some, ite_self]
    rw [target, h.names b dots g hb hd hg]

theorem IsTarget.binds_keyed (h : IsTarget w xs) (key : Term) (default : Option Term) :
    Binds true (key.chars ++ (':' :: ' ' :: (w ++ defaultText default))) xs where
  paired := by
    have colon : Paired [':', ' '] := .of_all (forall_mem_of_all (by decide))
    exact key.isTerm.paired.append (colon.append (h.isTerm.paired.append (paired_default default)))
  spans := by
    have colon : Spans ',' 0 .plain [':', ' '] 0 .plain :=
      spans_chars (forall_mem_of_all (by decide)) (forall_mem_of_all (by decide))
    exact (key.isTerm.spans (by decide)).append
      (colon.append ((h.isTerm.spans (by decide)).append (spans_default default)))
  names := by
    intro b e hb he
    have spaces {sep : Char} {s : List Char} (hs : ∀ c ∈ s, isSpace c = true) (hp : isSpace sep = false) :
        Spans sep 0 .plain s 0 .plain := spans_spaces hs hp
    have colon : Spans '=' 0 .plain [':', ' '] 0 .plain :=
      spans_chars (forall_mem_of_all (by decide)) (forall_mem_of_all (by decide))
    have whole : Spans '=' 0 .plain (b ++ (key.chars ++ ([':', ' '] ++ w))) 0 .plain :=
      (spaces hb (by decide)).append ((key.isTerm.spans (by decide)).append
        (colon.append (h.isTerm.spans (by decide))))
    obtain ⟨g, hg, bound⟩ := firstPart_default whole default he
    have front : Spans ':' 0 .plain (b ++ key.chars) 0 .plain :=
      (spaces hb (by decide)).append (key.isTerm.spans (by decide))
    have behind : Spans ':' 0 .plain ([' '] ++ (w ++ g)) 0 .plain :=
      (spaces isSpace_of_mem_singleton (by decide)).append
        ((h.isTerm.spans (by decide)).append (spaces hg (by decide)))
    have cut := parts_append_cut (.inr rfl) front ([' '] ++ (w ++ g))
    rw [parts_of_spans behind] at cut
    have text : b ++ (key.chars ++ (':' :: ' ' :: (w ++ defaultText default)) ++ e) =
        b ++ (key.chars ++ ([':', ' '] ++ w)) ++ (defaultText default ++ e) := by
      simp only [List.append_assoc, List.cons_append, List.nil_append]
    have keyed : b ++ (key.chars ++ ([':', ' '] ++ w)) ++ g =
        b ++ key.chars ++ ':' :: ([' '] ++ (w ++ g)) := by
      simp only [List.append_assoc, List.cons_append, List.nil_append]
    have target : elementTarget true
        (b ++ (key.chars ++ (':' :: ' ' :: (w ++ defaultText default)) ++ e)) = [' '] ++ (w ++ g) := by
      rw [elementTarget, text, bound, keyed, lastPart, cut]
      rfl
    rw [target]
    exact h.names [' '] [] g isSpace_of_mem_singleton (.inl rfl) hg

theorem IsTarget.bindAll_rest (h : IsTarget w xs) : BindAll object ["...".toList ++ w] xs := by
  have all : BindAll object _ _ := .cons (h.binds (.inr rfl) none) .nil
  rwa [defaultText, List.append_nil, List.append_nil] at all

theorem binds_hole : Binds object [] [] where
  paired := .nil
  spans := fun p _ => ⟨p, rfl⟩
  names := fun _ _ hb he => targetNames_blank fun c hc => (List.mem_append.mp hc).elim (hb c) (he c)

theorem BindAll.behindHole (h : BindAll object ws xs) : BindAll object (behindHole ws) xs := by
  cases h with
  | nil => exact .cons binds_hole .nil
  | cons h hs => exact .cons h hs

theorem Name.isTarget (n : Name) : IsTarget n.chars [n.string] where
  isTerm := .name n.isIdentifier
  names := by
    intro b dots e hb hd he
    have bare := bareTarget_term (.name n.isIdentifier) hb hd he
    have none : pattern? n.chars = none := by
      obtain ⟨c, s, hc⟩ := List.exists_cons_of_ne_nil n.isIdentifier.1
      have first : isIdentChar c = true := n.isIdentifier.2 c (by simp [hc])
      have ne (d : Char) (hd : isIdentChar d = false) : c ≠ d := ne_of_class first hd
      simp [hc, pattern?, between?, ne '{' (by decide), ne '[' (by decide)]
    rw [targetNames]
    split
    · rw [bare, n.isIdentifier.identifier?]
      rfl
    · rename_i hs
      simp [bare, none] at hs

theorem between?_concat (o c : Char) (s : List Char) : between? o c (o :: (s ++ [c])) = some s := by
  simp [between?]

/-- A list of elements in the brackets of a pattern is a target that binds what they bind. -/
theorem isTarget_pattern {inner : List Char} {o c : Char} (ho : (o, c) ∈ Scan.bracketPairs)
    (hp : pattern? (o :: (inner ++ [c])) = some (inner, object)) (paired : Paired inner)
    (hn : (parts ',' inner).flatMap (fun d => targetNames (elementTarget object d)) = xs) :
    IsTarget (o :: (inner ++ [c])) xs where
  isTerm := .group ho paired
  names := by
    intro b dots e hb hd he
    have bare := bareTarget_term (.group ho paired) hb hd he
    rw [targetNames_of_pattern (bare ▸ hp), hn]

mutual

/-- A pattern of any depth is read as the names that it binds. -/
theorem Pattern.isTarget : ∀ p : Pattern, IsTarget p.text p.names
  | .name n => n.isTarget
  | .object fields => by
    have all := fields.bindAll
    have names := all.names isSpace_of_mem_singleton isSpace_of_mem_singleton
    have space : Paired [' '] := .of_all (forall_mem_of_all (by decide))
    rw [Pattern.text, Pattern.names]
    refine isTarget_pattern (by decide) ?_ (space.append (all.paired.append space)) names
    rw [pattern?, between?_concat]
  | .array elements => by
    have all := elements.bindAll
    have names := all.names (b := []) (e := []) (by simp) (by simp)
    rw [List.append_nil, List.nil_append] at names
    rw [Pattern.text, Pattern.names]
    refine isTarget_pattern (by decide) ?_ all.paired names
    have braces (s : List Char) : between? '{' '}' ('[' :: s) = none := by simp [between?]
    rw [pattern?, braces, between?_concat]
    rfl

theorem Fields.bindAll : ∀ fields : Fields, BindAll true fields.texts fields.names
  | .nil => .nil
  | .rest n => n.isTarget.bindAll_rest
  | .shorthand n default more => .cons (n.isTarget.binds (.inl rfl) default) more.bindAll
  | .keyed key target default more => .cons (target.isTarget.binds_keyed key default) more.bindAll

theorem Elements.bindAll : ∀ elements : Elements, BindAll false elements.texts elements.names
  | .nil => .nil
  | .rest target => target.isTarget.bindAll_rest
  | .hole more => .cons binds_hole more.bindAll.behindHole
  | .element target default more => .cons (target.isTarget.binds (.inl rfl) default) more.bindAll

end

def declaratorTexts (ds : List (Pattern × Term)) : List (List Char) :=
  ds.map fun d => d.1.text ++ defaultText (some d.2)

theorem bindAll_declarators (ds : List (Pattern × Term)) :
    BindAll false (declaratorTexts ds) (ds.flatMap (·.1.names)) := by
  induction ds with
  | nil => exact .nil
  | cons d ds ih => exact .cons (d.1.isTarget.binds (.inl rfl) (some d.2)) ih

theorem declaratorNames_declarators (ds : List (Pattern × Term)) :
    declaratorNames (join [',', ' '] (declaratorTexts ds)) = ds.flatMap (·.1.names) := by
  have names := (bindAll_declarators ds).names (b := []) (e := []) (by simp) (by simp)
  rw [List.append_nil, List.nil_append] at names
  exact names

theorem takes_declarators (ds : List (Pattern × Term)) : Scan.Takes (Scan.Settled [])
    (join [',', ' '] (declaratorTexts ds)) (Scan.Settled []) := by
  have soft {s : List Char} (hs : ∀ c ∈ s, Scan.isIdle c = true ∨ isSpace c = true ∧ c ≠ '\n') :
      Scan.Takes (Scan.Settled []) s (Scan.Settled []) :=
    Scan.takes_soft fun c hc => (hs c hc).imp_right fun h => ⟨h.1, fun hn => absurd hn h.2⟩
  have one (d : Pattern × Term) : Scan.Takes (Scan.Settled []) (d.1.text ++ defaultText (some d.2))
      (Scan.Settled []) :=
    d.1.isTarget.isTerm.takes.append <|
      (soft (s := " = ".toList) (forall_mem_of_all (by decide))).append d.2.isTerm.takes
  induction ds with
  | nil => exact .nil
  | cons d ds ih =>
    cases ds with
    | nil => exact one d
    | cons d' ds => exact ((one d).append (soft (forall_mem_of_all (by decide)))).append ih

theorem exists_declarators_concat {ds : List (Pattern × Term)} (hn : ds ≠ []) :
    ∃ u c, join [',', ' '] (declaratorTexts ds) = u ++ [c] ∧ (c == ';') = false := by
  induction ds with
  | nil => exact absurd rfl hn
  | cons d ds ih =>
    cases ds with
    | nil =>
      obtain ⟨t, c, ht, -, hc⟩ := d.2.isTerm.ends
      refine ⟨d.1.text ++ (" = ".toList ++ t), c, ?_, hc⟩
      change d.1.text ++ (" = ".toList ++ d.2.chars) = _
      rw [ht, List.append_assoc, List.append_assoc]
    | cons d' ds =>
      obtain ⟨u, c, hu, hc⟩ := ih (List.cons_ne_nil _ _)
      refine ⟨d.1.text ++ defaultText (some d.2) ++ [',', ' '] ++ u, c, ?_, hc⟩
      rw [List.append_assoc, ← hu]
      rfl

theorem declarators_head (ds : List (Pattern × Term)) :
    ∀ c ∈ (join [',', ' '] (declaratorTexts ds) ++ [';']).head?, isBlank c = false := by
  cases ds with
  | nil => exact forall_head?_cons (by decide)
  | cons d ds =>
    obtain ⟨c, t, hc, first, -⟩ := d.1.isTarget.isTerm.begins
    obtain ⟨r, hr⟩ : ∃ r, join [',', ' '] (declaratorTexts (d :: ds)) = d.1.text ++ r := by
      cases ds with
      | nil => exact ⟨_, rfl⟩
      | cons d' ds =>
        refine ⟨defaultText (some d.2) ++ [',', ' '] ++ join [',', ' '] (declaratorTexts (d' :: ds)), ?_⟩
        rw [← List.append_assoc, ← List.append_assoc]
        rfl
    rw [hr, hc]
    exact forall_head?_cons first

/-- A printed declaration of patterns is read as one export of the names that they bind, from left to
right and each as often as it is bound. -/
theorem ofText?_patterns (ds : List (Pattern × Term)) :
    ∃ i, EsModule.ofText? (exportConst (join [',', ' '] (declaratorTexts ds))) = .ok [i] ∧
      i.kind = .declaration (ds.flatMap (·.1.names)) := by
  have keyword : Scan.Takes (Scan.Settled []) "export const ".toList (Scan.Settled []) :=
    Scan.takes_soft <| forall_mem_of_all
      (p := fun c => Scan.isIdle c = true ∨ isSpace c = true ∧ (c = '\n' → [] ≠ [])) (by decide)
  have closes := Scan.closes_of_takes (keyword.append (takes_declarators ds))
  rw [List.append_assoc] at closes
  have statement := Scan.statement_of_closes closes []
  rw [List.append_nil] at statement
  rw [← declaratorNames_declarators]
  refine ofText?_exportConst statement (declarators_head ds) ?_
  by_cases hn : ds = []
  · rw [hn]
    simp [declaratorTexts, join]
  · obtain ⟨u, c, hu, hc⟩ := exists_declarators_concat hn
    rw [hu]
    exact forall_getLast?_concat hc

example :
    let b : Name := ⟨['b'], by decide⟩
    let quoted : Term := .literal (.leaf "=,:\x7d")
    let target : Pattern := .array (.hole (.element (.name b) (some quoted) (.rest (.name b))))
    let p : Pattern := .object (.keyed quoted target none (.rest ⟨['r'], by decide⟩))
    p.text = "\x7b \"=,:\x7d\": [, b = \"=,:\x7d\", ...b], ...r \x7d".toList ∧
      p.names = ["b", "b", "r"] := by decide

end

end StyleExports.EsModule
