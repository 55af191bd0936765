import StyleExports.Proofs.EsModule.Declarators

namespace StyleExports.EsModule

open Text Piece

/-- One entry of an export list, and the name that it exports. The blanks around `as` touch it with a
space on each side. -/
inductive Entry : List Piece → String → Prop where
  | same {g n : List Char} (hg : ∀ c ∈ g, isSpace c = true) (hn : IsWord n) :
      Entry [⟨g, n⟩] (String.ofList n)
  | renamed {g n a b e : List Char} (hg : ∀ c ∈ g, isSpace c = true) (hn : IsWord n)
      (ha : ∀ c ∈ a, isSpace c = true) (hb : ∀ c ∈ b, isSpace c = true) (he : IsWord e) :
      Entry [⟨g, n⟩, ⟨a ++ [' '], "as".toList⟩, ⟨' ' :: b, e⟩] (String.ofList e)

/-- The entries of an export list, and the names that they export. -/
inductive Entries : List Piece → List String → Prop where
  | nil : Entries [] []
  | last {ps : List Piece} {x : String} (h : Entry ps x) : Entries ps [x]
  | cons {g : List Char} {ps qs : List Piece} {x : String} {xs : List String} (h : Entry ps x)
      (hg : ∀ c ∈ g, isSpace c = true) (hqs : Entries qs xs) :
      Entries (ps ++ ⟨g, [',']⟩ :: qs) (x :: xs)

/-- The tokens of an export statement behind its keyword, the names that it exports, and whether it
exports something as the default. Only blanks stand in front of the tokens that tell so much; gaps behind
them may hold comments. -/
inductive Exports : List Piece → List String → Bool → Prop where
  | default {g : List Char} {ps : List Piece} (hg : ∀ c ∈ g, isSpace c = true) :
      Exports (⟨g, "default".toList⟩ :: ps) [] true
  | list {g e : List Char} {ps qs : List Piece} {xs : List String} (hg : ∀ c ∈ g, isSpace c = true)
      (hps : Entries ps xs) (he : ∀ c ∈ e, isSpace c = true) :
      Exports (⟨g, ['{']⟩ :: (ps ++ ⟨e, ['}']⟩ :: qs)) (xs.filter (· ≠ "default"))
        (xs.any (· == "default"))
  | all {g e : List Char} {ps : List Piece} {feeds : Bool} (hg : ∀ c ∈ g, isSpace c = true)
      (he : IsGap feeds e) : Exports (⟨g, ['*']⟩ :: ⟨e, "from".toList⟩ :: ps) [] false
  | allAs {g a b n : List Char} {ps : List Piece} (hg : ∀ c ∈ g, isSpace c = true)
      (ha : ∀ c ∈ a, isSpace c = true) (hb : ∀ c ∈ b, isSpace c = true) (hn : IsWord n) :
      Exports (⟨g, ['*']⟩ :: ⟨a, "as".toList⟩ :: ⟨b, n⟩ :: ps) (identifier? n).toList false
  | named {g k b n : List Char} {ps : List Piece} (hg : ∀ c ∈ g, isSpace c = true)
      (hk : k ∈ nameKeywords) (hb : ∀ c ∈ b, isSpace c = true)
      (hn : IsWord n) : Exports (⟨g, k⟩ :: ⟨b, n⟩ :: ps) (identifier? n).toList false
  | bindings {g k : List Char} {ps : List Piece} {names : List String}
      (hg : ∀ c ∈ g, isSpace c = true) (hk : k ∈ variableKeywords) (hps : Declares ps names) :
      Exports (⟨g, k⟩ :: ps) names false

theorem isSpace_of_mem_singleton : ∀ c ∈ [' '], isSpace c = true := forall_mem_of_all (by decide)

section

variable {ps : List Piece} {x : String} {xs names : List String} {b : Bool}

theorem Entry.spaced (h : Entry ps x) : Entry (ps.map Piece.spaced) x := by
  cases h with
  | same _ hn => exact .same isSpace_of_mem_singleton hn
  | renamed _ hn _ _ he => exact .renamed (a := []) (b := []) isSpace_of_mem_singleton hn (by simp) (by simp) he

theorem Entries.spaced (h : Entries ps xs) : Entries (ps.map Piece.spaced) xs := by
  induction h with
  | nil => exact .nil
  | last h => exact .last h.spaced
  | cons h _ _ ih =>
    rw [List.map_append]
    exact .cons h.spaced isSpace_of_mem_singleton ih

theorem Exports.spaced (h : Exports ps names b) : Exports (ps.map Piece.spaced) names b := by
  have space := isSpace_of_mem_singleton
  cases h with
  | default => exact .default space
  | list _ hps _ =>
    rw [List.map_cons, List.map_append]
    exact .list space hps.spaced space
  | all => exact .all space isGap_space
  | allAs _ _ _ hn => exact .allAs space space space hn
  | named _ hk _ hn => exact .named space hk space hn
  | bindings _ hk hps => exact .bindings space hk hps.spaced

theorem cutText?_cons_of_second {d e c : Char} {t s : List Char} (h : ∀ a ∈ s.head?, a ≠ e) :
    cutText? (d :: e :: t) (c :: s) = (cutText? (d :: e :: t) s).map fun (a, b) => (c :: a, b) := by
  have hp : (d :: e :: t).isPrefixOf? (c :: s) = none := by
    cases s with
    | nil => simp [List.isPrefixOf?]
    | cons a s => simp [List.isPrefixOf?, Ne.symm (h a rfl)]
  rw [cutText?, hp]

/-- The first ` as ` behind a word and blanks is the one with the last of the blanks. -/
theorem cutText?_as {n a s : List Char} (hn : ' ' ∉ n) (ha : ∀ c ∈ a, isSpace c = true) :
    cutText? " as ".toList (n ++ (a ++ (" as ".toList ++ s))) = some (n ++ a, s) := by
  have text : " as ".toList = ' ' :: 'a' :: ['s', ' '] := rfl
  rw [text]
  induction n with
  | cons c n ih =>
    simp only [List.mem_cons, not_or] at hn
    rw [List.cons_append, cutText?_cons_of_ne (Ne.symm hn.1), ih hn.2]
    rfl
  | nil =>
    rw [List.nil_append, List.nil_append]
    induction a with
    | nil => exact cutText?_append (a := []) (by simp)
    | cons c a ih =>
      have second : ∀ d ∈ (a ++ (' ' :: 'a' :: ['s', ' '] ++ s)).head?, d ≠ 'a' := by
        intro d hd
        cases a with
        | nil =>
          obtain rfl := Option.some.inj hd
          decide
        | cons e a =>
          obtain rfl := Option.some.inj hd
          exact ne_of_class (ha e (by simp)) (by decide)
      rw [List.cons_append, cutText?_cons_of_second second, ih fun d hd => ha d (by simp [hd])]
      rfl

namespace Specifier

/-- An entry is a text behind blanks that is read as what it exports. -/
theorem exists_entry (h : Entry ps x) : ∃ g s, text ps = g ++ s ∧ (∀ c ∈ g, isSpace c = true) ∧
    s ≠ [] ∧ IsTight s ∧ (∀ c ∈ s, isNameChar c = true ∨ isBlank c = true) ∧
      (ofText s).exported = x := by
  have word {n : List Char} (hn : IsWord n) : ∀ c ∈ n, isNameChar c = true ∨ isBlank c = true :=
    fun c hc => .inl (isNameChar_of_isWordChar (hn.2 c hc))
  cases h with
  | @same g n hg hn =>
    have whole : cutText? " as ".toList n = none :=
      cutText?_of_not_mem (not_mem_of_isPlainName hn.isPlainName).1
    refine ⟨g, n, by simp [text], hg, hn.1, hn.isTight, word hn, ?_⟩
    rw [ofText, whole]
  | @renamed g n a b e hg hn ha hb he =>
    have cut : cutText? " as ".toList (n ++ (a ++ (" as ".toList ++ (b ++ e)))) =
        some (n ++ a, b ++ e) := cutText?_as (not_mem_of_isPlainName hn.isPlainName).1 ha
    have name := trim_pad (e := []) (isBlank_of_spaces hb) he.isTight (by simp)
    rw [List.append_nil] at name
    refine ⟨g, n ++ (a ++ (" as ".toList ++ (b ++ e))), by simp [text], hg,
      List.append_ne_nil_of_left_ne_nil hn.1 _, ⟨fun c hc => ?_, fun c hc => ?_⟩, fun c hc => ?_, ?_⟩
    · rw [List.head?_append_of_ne_nil _ hn.1] at hc
      exact hn.isTight.1 c hc
    · simp only [← List.append_assoc] at hc
      rw [List.getLast?_append_of_ne_nil _ he.1] at hc
      exact he.isTight.2 c hc
    · simp only [List.mem_append] at hc
      rcases hc with hc | hc | hc | hc | hc
      · exact word hn c hc
      · exact .inr (isBlank_of_spaces ha c hc)
      · have keyword : ∀ c ∈ " as ".toList, isNameChar c = true ∨ isBlank c = true :=
          forall_mem_of_all (by decide)
        exact keyword c hc
      · exact .inr (isBlank_of_spaces hb c hc)
      · exact word he c hc
    · rw [ofText, cut]
      simp only [name]

/-- Whatever blanks follow it, an entry is read as what it exports, and no mark stands in it. -/
theorem ofText_entry (h : Entry ps x) {g : List Char} (hg : ∀ c ∈ g, isSpace c = true) :
    trim (text ps ++ g) ≠ [] ∧ (ofText (trim (text ps ++ g))).exported = x ∧
      ∀ c ∈ text ps ++ g, c ≠ ',' ∧ c ≠ '}' := by
  obtain ⟨b, s, hs, hb, hne, tight, mem, hx⟩ := exists_entry h
  have trimmed : trim (text ps ++ g) = s := by
    rw [hs]
    exact trim_pad (isBlank_of_spaces hb) tight (isBlank_of_spaces hg)
  have marks : ∀ d ∈ [',', '}'], isNameChar d = false ∧ isBlank d = false :=
    forall_mem_of_all (by decide)
  refine ⟨trimmed ▸ hne, trimmed ▸ hx, fun c hc => ?_⟩
  have hc' : isNameChar c = true ∨ isBlank c = true := by
    rw [hs, List.mem_append, List.mem_append] at hc
    rcases hc with (hc | hc) | hc
    · exact .inr (isBlank_of_spaces hb c hc)
    · exact mem c hc
    · exact .inr (isBlank_of_spaces hg c hc)
  have ne (d : Char) (hd : d ∈ [',', '}']) : c ≠ d := by
    rintro rfl
    simp [marks c hd] at hc'
  exact ⟨ne ',' (by simp), ne '}' (by simp)⟩

/-- An export list is read entry by entry, and no brace stands in it. -/
theorem listOfText_entries (h : Entries ps xs) {g : List Char} (hg : ∀ c ∈ g, isSpace c = true) :
    (listOfText (text ps ++ g)).map (·.exported) = xs ∧ ∀ c ∈ text ps ++ g, (c == '}') = false := by
  have comma {s : List Char} (hs : ∀ c ∈ s, c ≠ ',' ∧ c ≠ '}') : ∀ c ∈ s, (c == ',') = false :=
    fun c hc => beq_eq_false_iff_ne.mpr (hs c hc).1
  have brace {s : List Char} (hs : ∀ c ∈ s, c ≠ ',' ∧ c ≠ '}') : ∀ c ∈ s, (c == '}') = false :=
    fun c hc => beq_eq_false_iff_ne.mpr (hs c hc).2
  induction h with
  | nil =>
    have free : ∀ c ∈ g, c ≠ ',' ∧ c ≠ '}' := fun c hc =>
      ⟨ne_of_class (hg c hc) (by decide), ne_of_class (hg c hc) (by decide)⟩
    have empty := trim_pad (b := []) (s := []) (by simp) (by decide) (isBlank_of_spaces hg)
    refine ⟨?_, brace free⟩
    change (listOfText g).map (·.exported) = []
    rw [listOfText, split_of_none (comma free)]
    simp [show trim g = [] from empty]
  | last h =>
    obtain ⟨hne, hx, free⟩ := ofText_entry h hg
    refine ⟨?_, brace free⟩
    rw [listOfText, split_of_none (comma free)]
    simp [hne, hx]
  | @cons e ps qs x xs h he _ ih =>
    obtain ⟨hne, hx, free⟩ := ofText_entry h he
    obtain ⟨rest, hrest⟩ := ih
    have shape : text (ps ++ ⟨e, [',']⟩ :: qs) ++ g = text ps ++ e ++ ',' :: (text qs ++ g) := by
      simp [text]
    rw [shape]
    refine ⟨?_, fun c hc => ?_⟩
    · rw [listOfText, split_append_cons (comma free) rfl]
      simp [hne, hx, ← rest, listOfText]
    · rcases List.mem_append.mp hc with hc | hc
      · exact brace free c hc
      · rcases List.mem_cons.mp hc with rfl | hc
        · rfl
        · exact hrest c hc

end Specifier

namespace Kind

/-- Behind its keyword and blanks, an export is what it is without them. -/
theorem ofStatement_blanks (n : Nat) {g s : List Char} (hg : ∀ c ∈ g, isSpace c = true)
    (hi : ∀ c ∈ (g ++ s).head?, isIdentChar c = false) (hs : ∀ c ∈ s.head?, isBlank c = false) :
    ofStatement n ("export".toList ++ (g ++ s)) = ofExport n s := by
  have none : afterKeyword? "import".toList ("export".toList ++ (g ++ s)) = none := rfl
  have trimmed := trimStart_pad (isBlank_of_spaces hg) hs
  simp only [ofStatement, none, afterKeyword?_append hi, trimmed]

theorem exists_ofExport_default (n : Nat) {s : List Char} (hs : ∀ c ∈ s.head?, isIdentChar c = false) :
    ∃ brace, ofExport n ("default".toList ++ s) = .exportDefault brace := by
  simp only [ofExport, afterKeyword?_append hs]
  split
  · exact ⟨_, rfl⟩
  · exact ⟨_, rfl⟩

theorem ofExport_declaration (n : Nat) {k : List Char} (hk : k ∈ nameKeywords ++ variableKeywords)
    (s : List Char) : ofExport n (k ++ s) = .declaration (declaredNames (k ++ s)) ∧
      ∀ c ∈ (k ++ s).head?, isBlank c = false := by
  simp only [nameKeywords, variableKeywords, List.map_cons, List.map_nil, List.cons_append,
    List.nil_append, List.mem_cons, List.not_mem_nil, or_false] at hk
  rcases hk with rfl | rfl | rfl | rfl | rfl
  all_goals exact ⟨rfl, forall_head?_cons (by decide)⟩

theorem ofStatement_const (n : Nat) {s : List Char} (hs : ∀ c ∈ (s ++ [';']).head?, isBlank c = false)
    (hl : ∀ c ∈ s.getLast?, (c == ';') = false) :
    ofStatement n ("export const ".toList ++ (s ++ [';'])) = .declaration (declaratorNames s) := by
  have shape : "export const ".toList ++ (s ++ [';']) =
      "export".toList ++ ([' '] ++ ("const".toList ++ ([' '] ++ (s ++ [';'])))) := rfl
  obtain ⟨kind, head⟩ := ofExport_declaration n (k := "const".toList) (by decide) ([' '] ++ (s ++ [';']))
  have trimmed := trim_pad (b := [' ']) (e := []) (isBlank_of_spaces isSpace_of_mem_singleton)
    ⟨hs, forall_getLast?_concat (by decide)⟩ (by simp)
  rw [List.append_nil] at trimmed
  have behind : ∀ c ∈ ([' '] ++ (s ++ [';'])).head?, isIdentChar c = false :=
    forall_head?_cons (by decide)
  rw [shape, ofStatement_blanks n isSpace_of_mem_singleton (forall_head?_cons (by decide)) head, kind,
    declaredNames_variables (by decide) behind, trimmed, dropEndWhile_concat, if_pos (beq_self_eq_true _), dropEndWhile_of_last hl]

theorem ofExport_star (n : Nat) (s : List Char) : ofExport n ('*' :: s) = .exportAll (starName? s) :=
  rfl

/-- Without `as` behind the asterisk there is no name: the keyword `from` follows, or a comment. -/
theorem starName?_from {feeds : Bool} {g : List Char} (hg : IsGap feeds g) (s : List Char) :
    starName? (g ++ ("from".toList ++ s)) = none := by
  have none (c : Char) (hc : c ≠ 'a') (hb : isBlank c = false) (t : List Char) :
      starName? (c :: t) = none := by
    have keyword : afterKeyword? "as".toList (c :: t) = Option.none :=
      afterKeyword?_of_head (c := 'a') rfl (by simpa using hc)
    rw [starName?, trimStart, List.dropWhile_cons_of_neg (by simp [hb]), keyword]
    rfl
  have blank {c : Char} (hc : isBlank c = true) (t : List Char) : starName? (c :: t) = starName? t := by
    rw [starName?, trimStart, List.dropWhile_cons_of_pos hc]
    rfl
  induction hg with
  | nil => exact none 'f' (by decide) (by decide) _
  | space hc _ _ ih => exact (blank (isBlank_of_isSpace hc) _).trans ih
  | newline _ ih => exact (blank (by decide) _).trans ih
  | lineComment => exact none '/' (by decide) (by decide) _
  | blockComment => exact none '/' (by decide) (by decide) _

theorem starName?_as {a b n r : List Char} (ha : ∀ c ∈ a, isSpace c = true)
    (hb : ∀ c ∈ b, isSpace c = true) (hn : IsWord n)
    (hi : ∀ c ∈ (b ++ (n ++ r)).head?, isIdentChar c = false) (hr : IsApart n r) :
    starName? (a ++ ("as".toList ++ (b ++ (n ++ r)))) = identifier? n := by
  have keyword : trimStart (a ++ ("as".toList ++ (b ++ (n ++ r)))) = "as".toList ++ (b ++ (n ++ r)) :=
    trimStart_pad (isBlank_of_spaces ha) (forall_head?_cons (by decide))
  rw [starName?, keyword, afterKeyword?_append hi, Option.bind_some,
    trimStart_pad (isBlank_of_spaces hb) (hn.head_not_blank r), identifier?_append hn.1 hr]

end Kind

def statementText (ps : List Piece) : List Char := "export".toList ++ text ps

/-- What is read of an export statement is what its form exports. -/
theorem exports_of_form (h : Exports ps names b) (ha : AreApart (⟨[], "export".toList⟩ :: ps))
    (hl : ∀ s, text ps = s ++ [';'] → s.getLast? ≠ some ';') {i : Item} {n : Nat}
    (hi : i.kind = Kind.ofStatement n (statementText ps)) : i.exportedNames = names ∧ i.hasDefault = b := by
  have after : ∀ c ∈ (text ps).head?, isIdentChar c = false := ha.1.head (by decide)
  unfold statementText at hi
  cases h with
  | @default g ps hg =>
    rw [text_cons] at hi after
    obtain ⟨brace, hk⟩ := Kind.exists_ofExport_default n (ha.2.1.head rfl)
    rw [Kind.ofStatement_blanks n hg after (forall_head?_cons (by decide)), hk] at hi
    simp [Item.exportedNames, Item.hasDefault, hi]
  | @list g e ps qs xs hg hps he =>
    obtain ⟨hx, free⟩ := Specifier.listOfText_entries hps he
    have shape : text (⟨g, ['{']⟩ :: (ps ++ ⟨e, ['}']⟩ :: qs)) =
        g ++ '{' :: (text ps ++ e ++ '}' :: text qs) := by simp [text]
    rw [shape, Kind.ofStatement_brace n (isBlank_of_spaces hg), Kind.ofList,
      cut?_append_cons free rfl] at hi
    rw [← hx]
    simp [Item.exportedNames, Item.hasDefault, hi, List.any_map, Function.comp_def]
  | @all g e ps feeds hg he =>
    rw [text_cons] at hi after
    have star := Kind.starName?_from he (text ps)
    rw [Kind.ofStatement_blanks n hg after (forall_head?_cons (by decide)), text_cons,
      List.singleton_append, Kind.ofExport_star, star] at hi
    simp [Item.exportedNames, Item.hasDefault, hi]
  | @allAs g a c m ps hg ha' hb hn =>
    rw [text_cons] at hi after
    have apart := ha.2.2
    rw [AreApart, text_cons] at apart
    have star := Kind.starName?_as ha' hb hn (apart.1.head rfl) apart.2.1
    rw [Kind.ofStatement_blanks n hg after (forall_head?_cons (by decide)), text_cons, text_cons,
      List.singleton_append, Kind.ofExport_star, star] at hi
    cases hm : identifier? m with
    | none => simp [Item.exportedNames, Item.hasDefault, hi, hm]
    | some x => simp [Item.exportedNames, Item.hasDefault, hi, hm]
  | @named g k c m ps hg hk hb hn =>
    rw [text_cons] at hi after
    have apart := ha.2
    rw [AreApart, text_cons] at apart
    obtain ⟨hkind, head⟩ := Kind.ofExport_declaration n (List.mem_append_left _ hk) (c ++ (m ++ text ps))
    rw [Kind.ofStatement_blanks n hg after (by rwa [text_cons]), text_cons, hkind,
      declaredNames_word hk hb hn apart.1 apart.2.1] at hi
    simp [Item.exportedNames, Item.hasDefault, hi]
  | @bindings g k ps names hg hk hps =>
    rw [text_cons] at hi after
    obtain ⟨hkind, head⟩ := Kind.ofExport_declaration n (List.mem_append_right _ hk) (text ps)
    have last (s : List Char) (hs : text ps = s ++ [';']) : s.getLast? ≠ some ';' := by
      intro hsemi
      exact hl (g ++ (k ++ s)) (by simp [text_cons, hs]) (by simp [List.getLast?_append, hsemi])
    rw [Kind.ofStatement_blanks n hg after head, hkind, declaredNames_of_declares hk hps ha.2 last] at hi
    simp [Item.exportedNames, Item.hasDefault, hi]

theorem ofText?_of_statement {c : Char} {s : List Char} (hs : ¬(isSpace c ∨ c = ';'))
    (hk : Chunk.comment? (c :: s) = none) (h : Scan.start.statement (c :: s) = .ok (c :: s, []))
    (hl : ∀ d ∈ (c :: s).getLast?, isSpace d = false) :
    EsModule.ofText? (c :: s) = .ok [Item.ofChunk ⟨0, c :: s, false⟩] := by
  rw [EsModule.ofText?, chunks_of_statement hs hk h, chunks, Chunk.trimmed, dropEndWhile_of_last hl]
  rfl

/-- A text that a semicolon closes is read as one statement. -/
theorem ofText?_of_closes {c : Char} {s : List Char} (hs : ¬(isSpace c ∨ c = ';'))
    (hk : Chunk.comment? (c :: s) = none) (h : Scan.start.closes (c :: s) = true) :
    EsModule.ofText? (c :: s) = .ok [Item.ofChunk ⟨0, c :: s, false⟩] := by
  have statement := Scan.statement_of_closes h []
  rw [List.append_nil] at statement
  obtain ⟨u, hu⟩ := Scan.exists_of_closes h
  refine ofText?_of_statement hs hk statement ?_
  rw [hu]
  exact forall_getLast?_concat (by decide)

def exportConst (s : List Char) : List Char := "export const ".toList ++ (s ++ [';'])

theorem exists_exportConst : ∃ lead, ∀ s, exportConst s = 'e' :: (lead ++ (s ++ [';'])) := by
  have keyword : "export const ".toList = 'e' :: "xport const ".toList := by decide
  refine ⟨"xport const ".toList, fun s => ?_⟩
  unfold exportConst
  rw [keyword, List.cons_append]

theorem comment?_exportConst (t : List Char) : Chunk.comment? ('e' :: t) = none := by
  cases t with
  | nil => rfl
  | cons d t => exact Chunk.comment?_eq_none.mpr (.inl (by decide))

theorem ofText?_exportConst {s : List Char}
    (h : Scan.start.statement (exportConst s) = .ok (exportConst s, []))
    (hs : ∀ c ∈ (s ++ [';']).head?, isBlank c = false) (hl : ∀ c ∈ s.getLast?, (c == ';') = false) :
    ∃ i, EsModule.ofText? (exportConst s) = .ok [i] ∧ i.kind = .declaration (declaratorNames s) := by
  obtain ⟨lead, hlead⟩ := exists_exportConst
  have kind := Kind.ofStatement_const (Chunk.stop ⟨0, exportConst s, false⟩) hs hl
  rw [hlead] at h
  have read := ofText?_of_statement (by decide) (comment?_exportConst _) h fun d hd => by
    rw [← List.append_assoc, ← List.cons_append] at hd
    exact forall_getLast?_concat (p := fun d => isSpace d = false) (by decide) d hd
  rw [← hlead] at read
  exact ⟨_, read, kind⟩

def Scan.exporting : Scan := ⟨"export".toList.reverse, [], some 't', .plain, 0⟩

theorem Scan.reads_export (t : List Char) : Reads start "export".toList t exporting :=
  .cons rfl (.cons rfl (.cons rfl (.cons rfl (.cons rfl (.cons rfl .nil)))))

/-- A layout of an export statement is read as what its form exports. -/
theorem exists_ofText?_statementText (h : Exports ps names b) (hl : Laid Scan.exporting ps) :
    ∃ m, EsModule.ofText? (statementText ps) = .ok m ∧ EsModule.exportedNames m = names ∧
      EsModule.hasDefault m = b := by
  have closes : Scan.start.closes (statementText ps) = true := by
    rw [statementText, (Scan.reads_export _).closes]
    exact hl.closes ⟨rfl, rfl, rfl, fun _ => rfl⟩ rfl
  have apart : AreApart (⟨[], "export".toList⟩ :: ps) := ⟨hl.head, hl.areApart⟩
  have last (s : List Char) (hs : text ps = s ++ [';']) : s.getLast? ≠ some ';' := by
    intro hsemi
    obtain ⟨r, rfl⟩ := List.getLast?_eq_some_iff.mp hsemi
    have twice : statementText ps = "export".toList ++ r ++ [';', ';'] := by
      simp [statementText, hs]
    rw [twice, Scan.not_closes_twice Scan.sound_start] at closes
    exact absurd closes (by decide)
  have read : EsModule.ofText? (statementText ps) = .ok [Item.ofChunk ⟨0, statementText ps, false⟩] :=
    ofText?_of_closes (by decide) (Chunk.comment?_eq_none.mpr (.inl (by decide))) closes
  obtain ⟨hnames, hdefault⟩ := exports_of_form h apart last
    (i := Item.ofChunk ⟨0, statementText ps, false⟩) rfl
  refine ⟨_, read, ?_, ?_⟩
  · simpa [EsModule.exportedNames] using hnames
  · simpa [EsModule.hasDefault] using hdefault

/-- An export statement is read alike in every layout: as the one with single blanks between its
tokens, and as what its form exports. -/
theorem exports_of_laid (h : Exports ps names b) (hl : Laid Scan.exporting ps) : ∃ m m' : EsModule,
    EsModule.ofText? (statementText ps) = .ok m ∧
      EsModule.ofText? (statementText (ps.map Piece.spaced)) = .ok m' ∧
      m.exportedNames = names ∧ m'.exportedNames = names ∧ m.hasDefault = b ∧ m'.hasDefault = b := by
  obtain ⟨m, hm, names, isDefault⟩ := exists_ofText?_statementText h hl
  obtain ⟨m', hm', names', isDefault'⟩ := exists_ofText?_statementText h.spaced hl.spaced
  exact ⟨m, m', hm, hm', names, names', isDefault, isDefault'⟩

end

/-- In an export list in braces on two lines, with two spaces, no gap and a comment between its tokens. -/
theorem exports_of_laid_list : ∃ ps, statementText ps = "export\t\x7bx  as default\n\x7d/* m */;".toList ∧
    Exports ps [] true ∧ Laid Scan.exporting ps ∧ ∃ m m' : EsModule,
      EsModule.ofText? (statementText ps) = .ok m ∧
        EsModule.ofText? (statementText (ps.map Piece.spaced)) = .ok m' ∧
        m.exportedNames = [] ∧ m'.exportedNames = [] ∧ m.hasDefault = true ∧ m'.hasDefault = true := by
  let ps : List Piece := [⟨['\t'], ['{']⟩, ⟨[], ['x']⟩, ⟨"  ".toList, "as".toList⟩,
    ⟨[' '], "default".toList⟩, ⟨['\n'], ['}']⟩, ⟨"/* m */".toList, [';']⟩]
  have none : ∀ c ∈ [], isSpace c = true := by simp
  have entry : Entry [⟨[], ['x']⟩, ⟨"  ".toList, "as".toList⟩, ⟨[' '], "default".toList⟩] "default" :=
    .renamed (a := [' ']) (b := []) none (by decide) isSpace_of_mem_singleton none (by decide)
  have form : Exports ps [] true :=
    .list (forall_mem_of_all (by decide)) (.last entry) (forall_mem_of_all (by decide))
  have tab : IsGap false ['\t'] := .space (by decide) (by decide) .nil
  have blanks : IsGap false "  ".toList := .space (by decide) (by decide) isGap_space
  have comment : IsGap false "/* m */".toList := .blockComment (a := " m */".toList) (by decide) .nil
  have laid : Laid Scan.exporting ps :=
    .cons (.inl rfl) (by decide)
      ⟨⟨_, tab, by decide⟩, by decide, by decide, by decide, by decide⟩
      (fun _ => .cons rfl (.cons rfl .nil)) <|
    .cons (.inl rfl) (by decide)
      ⟨⟨_, .nil, by decide⟩, by rintro - - d ⟨⟩; decide, by decide, by decide, by decide⟩
      (fun _ => .cons rfl (.cons rfl .nil)) <|
    .cons (.inl rfl) (by decide)
      ⟨⟨_, blanks, by decide⟩, by decide, by decide, by decide, by decide⟩
      (fun _ => .cons rfl (.cons rfl (.cons rfl .nil))) <|
    .cons (.inl rfl) (by decide)
      ⟨⟨_, isGap_space, by decide⟩, by decide, by decide, by decide, by decide⟩
      (fun _ => .cons rfl <| .cons rfl <| .cons rfl <| .cons rfl <| .cons rfl <| .cons rfl <|
        .cons rfl <| .cons rfl .nil) <|
    .cons (.inl rfl) (by decide)
      ⟨⟨_, .newline .nil, by decide⟩, by decide, by decide, by decide, by decide⟩
      (fun _ => .cons rfl (.cons rfl .nil)) <|
    .last (.inl rfl) rfl ⟨⟨_, comment, by decide⟩, by decide, by decide, by decide, by decide⟩
  exact ⟨ps, by decide, form, laid, exports_of_laid form laid⟩

/-- A tab behind `as` hides the keyword: the entry is read as one name, and the default export is
missed. -/
theorem export_hidden_by_tab : ∃ (ps : List Piece) (m m' : EsModule),
    statementText ps = "export \x7b x as\tdefault \x7d;".toList ∧
      statementText (ps.map Piece.spaced) = "export \x7b x as default \x7d ;".toList ∧
      EsModule.ofText? (statementText ps) = .ok m ∧
      EsModule.ofText? (statementText (ps.map Piece.spaced)) = .ok m' ∧
      m.exportedNames = ["x as\tdefault"] ∧ m.hasDefault = false ∧
      m'.exportedNames = [] ∧ m'.hasDefault = true := by
  let ps : List Piece := [⟨[' '], ['{']⟩, ⟨[' '], ['x']⟩, ⟨[' '], "as".toList⟩,
    ⟨['\t'], "default".toList⟩, ⟨[' '], ['}']⟩, ⟨[], [';']⟩]
  have closes : Scan.start.closes (statementText ps) = true := by decide +kernel
  have closes' : Scan.start.closes (statementText (ps.map Piece.spaced)) = true := by decide +kernel
  refine ⟨ps, _, _, by decide, by decide, ofText?_of_closes (by decide) (by decide) closes,
    ofText?_of_closes (by decide) (by decide) closes', ?_⟩
  decide +kernel

end StyleExports.EsModule
