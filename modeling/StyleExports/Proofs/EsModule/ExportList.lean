import StyleExports.Proofs.EsModule.Close
import StyleExports.Proofs.EsModule.Demotion
import StyleExports.Proofs.EsModule.Specifier
import StyleExports.Proofs.EsModule.Takes

namespace StyleExports.EsModule

open Text

def listInner (specifiers : List Specifier) : List Char :=
  ' ' :: (join [',', ' '] (specifiers.map Specifier.chars) ++ [' '])

/-- An export list up to its closing brace. -/
def listBody (specifiers : List Specifier) : List Char :=
  "export ".toList ++ '{' :: (listInner specifiers ++ ['}'])

def listTail : Option String → List Char
  | none => [';']
  | some source => " from ".toList ++ (source.toList ++ [';'])

theorem listTail_some (source : String) :
    listTail (some source) = " from ".toList ++ (source.toList ++ [';']) := rfl

theorem listText_toList (specifiers : List Specifier) (source : Option String) :
    (Item.listText specifiers source).toList = listBody specifiers ++ listTail source := by
  have parts : (String.intercalate ", " (specifiers.map Specifier.render)).toList =
      join [',', ' '] (specifiers.map Specifier.chars) := by
    rw [String.toList_intercalate, join_eq_intercalate, List.map_map]
    rfl
  unfold Item.listText listBody listInner
  cases source with
  | none =>
    change _ = _ ++ [';']
    simp [parts]
  | some s =>
    rw [listTail_some]
    simp [parts]

section

variable {specifiers : List Specifier}

theorem mem_listInner (h : ∀ e ∈ specifiers, e.isPlain = true) {c : Char}
    (hc : c ∈ listInner specifiers) : isNameChar c = true ∨ c = ' ' ∨ c = ',' := by
  simp only [listInner, List.mem_cons, List.mem_append, List.not_mem_nil, or_false] at hc
  rcases hc with hc | hc | hc
  · exact .inr (.inl hc)
  · rcases mem_of_mem_join hc with hc | ⟨w, hw, hc⟩
    · simp only [List.mem_cons, List.not_mem_nil, or_false] at hc
      exact .inr hc.symm
    · obtain ⟨e, he, rfl⟩ := List.mem_map.mp hw
      exact (Specifier.mem_chars (h e he) hc).imp_right .inl
  · exact .inr (.inl hc)

theorem takes_listBody (h : ∀ e ∈ specifiers, e.isPlain = true) :
    Scan.Takes (Scan.Settled []) (listBody specifiers) (Scan.Ready []) := by
  have keyword : ∀ c ∈ "export ".toList, Scan.isSoft [] c := by
    unfold Scan.isSoft
    exact forall_mem_of_all (by decide)
  have inner : ∀ c ∈ listInner specifiers, Scan.isSoft ['{'] c := by
    intro c hc
    rcases mem_listInner h hc with hc | rfl | rfl
    · exact .inl (isNameChar_iff.mp hc).1
    · exact .inr ⟨by decide, by simp⟩
    · exact .inl (by decide)
  exact (Scan.takes_soft keyword).append (Scan.takes_braces (Scan.takes_soft inner))

end

namespace Kind

theorem ofStatement_brace (n : Nat) {b : List Char} (hb : ∀ c ∈ b, isBlank c = true)
    (s : List Char) : ofStatement n ("export".toList ++ (b ++ '{' :: s)) = ofList s := by
  have hi : afterKeyword? "import".toList ("export".toList ++ (b ++ '{' :: s)) = none :=
    afterKeyword?_of_head (c := 'i') rfl (by simp)
  have he : afterKeyword? "export".toList ("export".toList ++ (b ++ '{' :: s)) =
      some (b ++ '{' :: s) := by
    apply afterKeyword?_append
    cases b with
    | nil => exact forall_head?_cons (by decide)
    | cons d b => exact forall_head?_cons (Scan.isIdentChar_of_isBlank (hb d List.mem_cons_self))
  have ht : trimStart (b ++ '{' :: s) = '{' :: s :=
    trimStart_pad hb (forall_head?_cons (by decide))
  have hd : afterKeyword? "default".toList ('{' :: s) = none :=
    afterKeyword?_of_head (c := 'd') rfl (by simp)
  simp only [ofStatement, hi, he, ht, ofExport, hd]

theorem ofStatement_listBody (n : Nat) {specifiers : List Specifier} (hn : specifiers ≠ [])
    (h : ∀ e ∈ specifiers, e.isPlain = true) (tail : List Char) :
    ofStatement n (listBody specifiers ++ tail) = .exportList specifiers (source? tail) := by
  have hs : listBody specifiers ++ tail =
      "export".toList ++ ([' '] ++ '{' :: (listInner specifiers ++ '}' :: tail)) := by
    unfold listBody
    simp
  have hc : cut? (· == '}') (listInner specifiers ++ '}' :: tail) =
      some (listInner specifiers, tail) := by
    apply cut?_append_cons _ rfl
    intro c hc
    rw [beq_eq_false_iff_ne]
    rintro rfl
    have hm := mem_listInner h hc
    revert hm
    decide
  have hl : Specifier.listOfText (listInner specifiers) = specifiers :=
    Specifier.listOfText_join hn h
  have blank : ∀ c ∈ [' '], isBlank c = true := forall_mem_of_all (by decide)
  rw [hs, ofStatement_brace n blank, ofList, hc]
  simp only [hl]

theorem source?_of_tail {source : List Char} (hs : IsTight source)
    (hl : source.getLast? ≠ some ';') :
    source? (" from ".toList ++ (source ++ [';'])) = some (String.ofList source) := by
  have hfrom : trimStart (" from ".toList ++ (source ++ [';'])) =
      "from".toList ++ (' ' :: (source ++ [';'])) :=
    trimStart_pad (b := [' ']) (forall_mem_of_all (by decide)) (forall_head?_cons (by decide))
  have hk : afterKeyword? "from".toList ("from".toList ++ (' ' :: (source ++ [';']))) =
      some (' ' :: (source ++ [';'])) :=
    afterKeyword?_append (forall_head?_cons (by decide))
  have tight : IsTight (source ++ [';']) := by
    constructor
    · cases source with
      | nil => exact forall_head?_cons (by decide)
      | cons d s => exact hs.1
    · exact forall_getLast?_concat (by decide)
  have ht : trim (' ' :: (source ++ [';'])) = source ++ [';'] := by
    have hp := trim_pad (b := [' ']) (e := []) (forall_mem_of_all (by decide)) tight (by simp)
    rwa [List.append_nil] at hp
  have hd : dropEndWhile (· == ';') (source ++ [';']) = source := by
    rw [dropEndWhile_concat, if_pos (beq_self_eq_true _), dropEndWhile_of_last]
    intro c hc
    rw [beq_eq_false_iff_ne]
    rintro rfl
    exact hl hc
  have he : trimEnd source = source := by
    have hp := trimEnd_pad (e := []) hs.2 (by simp)
    rwa [List.append_nil] at hp
  unfold source?
  rw [hfrom, hk, Option.map_some, ht, hd, he]

theorem ofExport_eq_exportList {n : Nat} {s : List Char} {specifiers : List Specifier}
    {source : Option String} (h : ofExport n s = .exportList specifiers source) :
    ∃ t, s = '{' :: t ∧ ofList t = .exportList specifiers source := by
  unfold ofExport at h
  cases hd : afterKeyword? "default".toList s with
  | some rest =>
    simp only [hd] at h
    split at h <;> simp at h
  | none =>
    simp only [hd] at h
    split at h
    · simp at h
    · exact ⟨_, rfl, h⟩
    · simp at h

theorem ofList_eq_exportList {s : List Char} {specifiers : List Specifier} {source : String}
    (h : ofList s = .exportList specifiers (some source)) :
    ∃ inner tail, cut? (· == '}') s = some (inner, tail) ∧
      specifiers = Specifier.listOfText inner ∧ source? tail = some source := by
  unfold ofList at h
  split at h
  · rename_i inner tail hcut
    simp only [exportList.injEq] at h
    exact ⟨inner, tail, hcut, h.1.symm, h.2⟩
  · simp at h

/-- What a list that names a module says, from the keyword `export` on. -/
theorem ofStatement_eq_exportList {n : Nat} {s : List Char} {specifiers : List Specifier}
    {source : String} (h : ofStatement n s = .exportList specifiers (some source)) :
    ∃ b inner d rest, (∀ c ∈ b, isBlank c = true) ∧ (∀ c ∈ d, isBlank c = true) ∧
      (∀ c ∈ rest.head?, isIdentChar c = false) ∧
      s = "export".toList ++ (b ++ '{' :: (inner ++ '}' :: (d ++ ("from".toList ++ rest)))) ∧
      specifiers = Specifier.listOfText inner ∧
      source.toList = trimEnd (dropEndWhile (· == ';') (trim rest)) := by
  obtain ⟨r, hr, he⟩ := afterExport_of_ofStatement (n := n) (s := s) (by simp [h])
  obtain ⟨b, hb, hrb⟩ := exists_dropWhile isBlank r
  change r = b ++ trimStart r at hrb
  obtain ⟨t, ht, hlist⟩ := ofExport_eq_exportList (he.symm.trans h)
  obtain ⟨inner, tail, hcut, hsp, hsource⟩ := ofList_eq_exportList hlist
  obtain ⟨c, hc, hbrace⟩ := cut?_eq_some hcut
  obtain rfl : c = '}' := by simpa using hbrace
  obtain ⟨rest, hrest, hs⟩ := Option.map_eq_some_iff.mp hsource
  obtain ⟨d, hd, htail⟩ := exists_dropWhile isBlank tail
  change tail = d ++ trimStart tail at htail
  obtain ⟨hfrom, hhead⟩ := afterKeyword?_eq_some.mp hrest
  refine ⟨b, inner, d, rest, hb, hd, hhead, ?_, hsp, ?_⟩
  · rw [eq_append_of_keyword hr, hrb, ht, hc, htail, hfrom]
  · rw [← hs, String.toList_ofList]

end Kind

namespace Scan

theorem regexAllowed_of_quiet {st : Scan} {s : List Char} (hm : st.mode = .plain)
    (h : st.closes ('/' :: s) = true) (hq : st.staysIn isQuiet ('/' :: s) = true) :
    regexAllowed st.before = false := by
  rw [Bool.eq_false_iff]
  intro hr
  have hs (t : List Char) : st.step '/' t = .ok (.more (st.begin '/' (.slash true))) := by
    rw [step_slash hm, hr]
  rw [closes, hs] at h
  rw [staysIn, hs, Bool.and_eq_true] at hq
  obtain ⟨-, hq⟩ := hq
  cases s with
  | nil => simp [closes] at h
  | cons c s =>
    simp only [closes] at h
    simp only [staysIn, Bool.and_eq_true] at hq
    cases hstep : (st.begin '/' (.slash true)).step c s with
    | error e => simp [hstep] at h
    | ok r =>
      cases r with
      | endsBefore => simp [hstep] at h
      | endsWith =>
        have hmode := (step_eq_endsWith hstep).2.2
        simp [begin] at hmode
      | more u =>
        -- The character after the slash leads into a comment or a regular expression.
        simp only [hstep] at hq
        have hu : isQuiet u.mode = true := by
          cases s with
          | nil => exact hq.2
          | cons d s => exact (Bool.and_eq_true_iff.mp hq.2).1
        simp only [step, begin] at hstep
        split at hstep
        · cases hstep
          simp [isQuiet] at hu
        split at hstep
        · cases hstep
          simp [isQuiet] at hu
        · rcases regexStep_mode (by simpa using hstep) with ⟨a, b, hm⟩ | hm
          · simp [hm, isQuiet] at hu
          · simp [hm, isQuiet] at hu

theorem ready_start : Ready [] start := ⟨rfl, rfl, rfl⟩

theorem Reads.ready_list {u : Scan} {b inner w t : List Char}
    (h : Reads start ("export".toList ++ b ++ ('{' :: (inner ++ ['}']) ++ w)) t u)
    (hb : ∀ c ∈ b, isBlank c = true)
    (hi : ∀ c ∈ inner, isNameChar c = true ∨ isBlank c = true ∨ c = ',')
    (hw : ∀ c ∈ w, isIdentChar c = true ∨ isBlank c = true) : Ready [] u := by
  have soft : ∀ c ∈ inner, isSoft ['{'] c := by
    intro c hc
    rcases hi c hc with hn | hblank | rfl
    · exact .inl (isNameChar_iff.mp hn).1
    · by_cases hs : isSpace c
      · exact .inr ⟨hs, by simp⟩
      · exact .inl (isIdle_of_isBlank hblank (by simpa using hs))
    · exact .inl (by decide)
  have word : ∀ c ∈ "export".toList, isIdentChar c = true := forall_mem_of_all (by decide)
  obtain ⟨u₁, h1, h2⟩ := h.split
  obtain ⟨u₂, h2, h3⟩ := h2.split
  have r1 : Ready [] u₁ := h1.ready ready_start fun c hc =>
    (List.mem_append.mp hc).imp (word c) (hb c)
  obtain ⟨v, hv, r2⟩ := takes_braces (takes_soft soft) u₁ (w ++ t) r1.settled
  rw [← h2.det hv] at r2
  exact h3.ready r2 hw

end Scan

/-- Before the semicolon that closes a list stands the name of the module, between blanks. -/
theorem exists_source {h rest : List Char} (hs : Scan.start.closes (h ++ rest) = true)
    (hh : h.getLast? ≠ some ';') :
    ∃ b e, (∀ c ∈ b, isBlank c = true) ∧ (∀ c ∈ e, isBlank c = true) ∧
      rest = b ++ (trim rest.dropLast ++ (e ++ [';'])) ∧
      trimEnd (dropEndWhile (· == ';') (trim rest)) = trim rest.dropLast := by
  obtain ⟨w, hw⟩ := Scan.exists_of_closes hs
  have last : rest.getLast? = some ';' := by
    have hl := congrArg List.getLast? hw
    rw [List.getLast?_append, List.getLast?_concat] at hl
    cases hr : rest.getLast? with
    | none => exact absurd (by simpa [hr] using hl) hh
    | some c => simpa [hr] using hl
  obtain ⟨r, rfl⟩ := List.getLast?_eq_some_iff.mp last
  rw [List.dropLast_concat]
  obtain ⟨b, e, hb, he, hr⟩ := exists_trim r
  refine ⟨b, e, hb, he, ?_, ?_⟩
  · rw [← List.append_assoc, ← List.append_assoc, ← hr]
  -- No further semicolon stands at the end of the name.
  have single : ∀ z, trimStart r ≠ z ++ [';'] := by
    intro z hz
    obtain ⟨b', -, hb'⟩ := exists_dropWhile isBlank r
    change r = b' ++ trimStart r at hb'
    have ht : h ++ (r ++ [';']) = (h ++ b' ++ z) ++ [';', ';'] := by
      rw [hb', hz]
      simp
    rw [ht, Scan.not_closes_twice Scan.sound_start] at hs
    exact absurd hs (by decide)
  have same : dropEndWhile (· == ';') (trimStart r) = trimStart r := by
    rw [dropEndWhile_eq_rdropWhile, List.rdropWhile_eq_self_iff]
    intro hne hl
    apply single (trimStart r).dropLast
    have hc : (trimStart r).getLast hne = ';' := by simpa using hl
    rw [← hc, List.dropLast_append_getLast]
  rw [trim_concat r (by decide), dropEndWhile_concat, if_pos (beq_self_eq_true _), same]
  rfl

theorem not_isIdentChar_of_blanks {a b : List Char} (hb : ∀ c ∈ b, isBlank c = true) (hn : b ≠ []) :
    ∀ c ∈ (b.reverse ++ a).head?, isIdentChar c = false := by
  intro c hc
  rw [List.head?_append_of_ne_nil _ (by simpa using hn), List.head?_reverse] at hc
  exact Scan.isIdentChar_of_isBlank (hb c (List.mem_of_getLast? hc))

/-- Where the automaton stands before the name of a module that blanks follow. -/
structure Scan.BeforeSource (source e : List Char) (u : Scan) : Prop where
  ready : Ready [] u
  sound : u.Sound
  apart : ∀ c ∈ (source ++ [';']).head?, isIdentChar c →
    ∀ d ∈ u.before.head?, isIdentChar d = false
  blanks : ∀ c ∈ e, isBlank c = true
  closes : u.closes (source ++ (e ++ [';'])) = true
  quiet : u.staysIn isQuiet (source ++ (e ++ [';'])) = true

theorem exists_beforeSource {n : Nat} {s : List Char} {specifiers : List Specifier}
    {source : String} (hk : Kind.ofStatement n s = .exportList specifiers (some source))
    (hs : Scan.start.closes s = true) (hq : Scan.start.staysIn Scan.isQuiet s = true)
    (hp : ∀ e ∈ specifiers, e.isPlain = true) :
    IsTight source.toList ∧ ∃ u e, Scan.BeforeSource source.toList e u := by
  obtain ⟨b, inner, d, rest, hb, hd, hhead, rfl, rfl, hsource⟩ :=
    Kind.ofStatement_eq_exportList hk
  have shape (x : List Char) :
      "export".toList ++ (b ++ '{' :: (inner ++ '}' :: (d ++ ("from".toList ++ x)))) =
        "export".toList ++ b ++ ('{' :: (inner ++ ['}']) ++ (d ++ "from".toList)) ++ x := by
    simp only [List.append_assoc, List.cons_append, List.nil_append]
  rw [shape] at hs hq
  have keyword : ("export".toList ++ b ++ ('{' :: (inner ++ ['}']) ++ (d ++ "from".toList))).getLast? ≠
      some ';' := by
    simp only [← List.append_assoc, ← List.cons_append]
    rw [List.getLast?_append_of_ne_nil _ (by simp)]
    decide
  obtain ⟨b', e, hb', he, hrest, htrim⟩ := exists_source hs keyword
  have hname : source.toList = trim rest.dropLast := hsource.trans htrim
  rw [← hname] at hrest
  rw [hrest, ← List.append_assoc] at hs hq
  obtain ⟨u, hu, hcl⟩ := Scan.exists_reads hs (by simp)
  refine ⟨hname ▸ isTight_trim _, u, e, ?_, hu.sound Scan.sound_start, ?_, he, hcl, hu.staysIn hq⟩
  · refine Scan.Reads.ready_list (w := d ++ "from".toList ++ b') (by simpa using hu) hb
      (fun c hc => Specifier.mem_of_isPlain hp hc) fun c hc => ?_
    have word : ∀ c ∈ "from".toList, isIdentChar c = true := forall_mem_of_all (by decide)
    simp only [List.mem_append] at hc
    rcases hc with (hc | hc) | hc
    · exact .inr (hd c hc)
    · exact .inl (word c hc)
    · exact .inr (hb' c hc)
  · intro c hc hi
    by_cases hn : b' = []
    · -- No blank follows the keyword, so no word does.
      rw [hn, List.nil_append] at hrest
      have hf : isIdentChar c = false := by
        cases hsrc : source.toList with
        | nil =>
          rw [hsrc] at hc
          exact forall_head?_cons (p := fun e => isIdentChar e = false) (by decide) c hc
        | cons x t =>
          rw [hsrc] at hc hrest
          obtain rfl : x = c := Option.some.inj hc
          exact hhead x (by rw [hrest]; rfl)
      simp [hi] at hf
    · rw [hu.before, List.reverse_append, List.append_assoc]
      exact not_isIdentChar_of_blanks hb' hn

/-- Where the automaton stands after a new list of specifiers and `from`. -/
theorem exists_afterFrom {kept : List Specifier} (hkept : ∀ e ∈ kept, e.isPlain = true)
    (t : List Char) : ∃ v, Scan.Reads Scan.start (listBody kept ++ " from ".toList) t v ∧
      Scan.Ready [] v ∧ (∀ d ∈ v.before.head?, isIdentChar d = false) ∧
      regexAllowed v.before = false := by
  have soft : ∀ c ∈ " from ".toList,
      Scan.isSoft [] c ∧ (isIdentChar c = true ∨ isBlank c = true) := by
    unfold Scan.isSoft
    exact forall_mem_of_all (by decide)
  obtain ⟨v, hv, hready⟩ := (takes_listBody hkept).append (Scan.takes_words soft) Scan.start t
    Scan.ready_start.settled
  have before : v.before = ' ' :: 'm' :: 'o' :: 'r' :: 'f' :: ' ' :: (listBody kept).reverse := by
    rw [hv.before, List.reverse_append, List.append_assoc]
    simp [Scan.start]
  refine ⟨v, hv, hready, ?_, ?_⟩
  · rw [before]
    exact forall_head?_cons (by decide)
  · rw [before]
    rfl

/-- The name of a module goes on after new specifiers as it did after the old ones. -/
theorem closes_source {n : Nat} {s : List Char} {specifiers kept : List Specifier}
    {source : String} (hk : Kind.ofStatement n s = .exportList specifiers (some source))
    (hs : Scan.start.closes s = true) (hq : Scan.start.staysIn Scan.isQuiet s = true)
    (hp : ∀ e ∈ specifiers, e.isPlain = true) (hkept : ∀ e ∈ kept, e.isPlain = true) :
    Scan.start.closes (listBody kept ++ listTail (some source)) = true ∧
      IsTight source.toList ∧ source.toList.getLast? ≠ some ';' := by
  obtain ⟨tight, u, e, hu⟩ := exists_beforeSource hk hs hq hp
  have short := Scan.closes_without_blanks hu.sound hu.blanks hu.closes hu.quiet
  have hlast : source.toList.getLast? ≠ some ';' := by
    intro hl
    obtain ⟨z, hz⟩ := List.getLast?_eq_some_iff.mp hl
    have twice : source.toList ++ [';'] = z ++ [';', ';'] := by simp [hz]
    rw [twice, Scan.not_closes_twice hu.sound] at short
    exact absurd short (by decide)
  refine ⟨?_, tight, hlast⟩
  obtain ⟨v, hv, new, apart, division⟩ := exists_afterFrom hkept (source.toList ++ [';'])
  rw [listTail_some, ← List.append_assoc, hv.closes]
  obtain ⟨c, t, hct⟩ : ∃ c t, source.toList ++ [';'] = c :: t :=
    List.exists_cons_of_ne_nil (by simp)
  have blank : isBlank c = false := by
    cases hsrc : source.toList with
    | nil =>
      rw [hsrc] at hct
      obtain rfl : ';' = c := (List.cons.inj hct).1
      decide
    | cons x y =>
      rw [hsrc] at hct
      obtain rfl : x = c := (List.cons.inj hct).1
      exact tight.1 x (by rw [hsrc]; rfl)
  have space : isSpace c = false := by
    rw [Bool.eq_false_iff]
    intro hspace
    simp [isBlank_of_isSpace hspace] at blank
  -- After `from` and a space a slash is a division, so it must have been one before.
  have slash : c = '/' → regexAllowed u.before = regexAllowed v.before := by
    rintro rfl
    rw [division]
    cases hsrc : source.toList with
    | nil => simp [hsrc] at hct
    | cons x y =>
      rw [hsrc] at hct
      obtain rfl : x = '/' := (List.cons.inj hct).1
      have hcl := hu.closes
      have hq := hu.quiet
      rw [hsrc] at hcl hq
      exact Scan.regexAllowed_of_quiet hu.ready.mode hcl hq
  rw [hct] at short ⊢
  rw [← short]
  exact (Scan.closes_cons_of_ready hu.ready new space (hu.apart c (by rw [hct]; rfl))
    (fun _ => apart) slash).symm

end StyleExports.EsModule
