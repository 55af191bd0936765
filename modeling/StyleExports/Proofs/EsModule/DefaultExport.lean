import StyleExports.Proofs.EsModule.Demotion
import StyleExports.Proofs.EsModule.Resume
import StyleExports.Proofs.EsModule.Takes

namespace StyleExports.EsModule

open Text

/-- The beginning of a default export of an object, with blanks behind its keywords. -/
def exportOpening (b e : List Char) : List Char :=
  "export".toList ++ (b ++ ("default".toList ++ (e ++ ['{'])))

theorem exportOpening_eq (b e : List Char) :
    exportOpening b e = "export".toList ++ (b ++ ("default".toList ++ (e ++ ['{']))) := rfl

/-- The beginning of a default export of an object whose first entry is a name. -/
def joinedOpening (name : List Char) : List Char :=
  exportOpening [' '] [' '] ++ (' ' :: (name ++ [',']))

section

variable {b e s x y name : List Char}

theorem afterKeyword?_export (hb : ∀ c ∈ b, isBlank c) (hn : b ≠ []) (s : List Char) :
    afterKeyword? "export".toList ("export".toList ++ (b ++ s)) = some (b ++ s) := by
  obtain ⟨c, b, rfl⟩ := List.exists_cons_of_ne_nil hn
  exact afterKeyword?_append (forall_head?_cons (Scan.isIdentChar_of_isBlank (hb c List.mem_cons_self)))

theorem afterKeyword?_exportOpening (hb : ∀ c ∈ b, isBlank c) (hn : b ≠ []) (s : List Char) :
    afterKeyword? "export".toList (exportOpening b e ++ s) =
      some (b ++ ("default".toList ++ (e ++ ['{'])) ++ s) := by
  rw [exportOpening_eq, List.append_assoc, List.append_assoc]
  exact afterKeyword?_export hb hn _

theorem afterKeyword?_default {c : Char} (he : ∀ d ∈ e, isBlank d)
    (hc : e = [] → isIdentChar c = false) (s : List Char) :
    afterKeyword? "default".toList ("default".toList ++ (e ++ c :: s)) = some (e ++ c :: s) := by
  refine afterKeyword?_append fun d hd => ?_
  cases e with
  | nil =>
    obtain rfl := Option.some.inj hd
    exact hc rfl
  | cons b e =>
    obtain rfl := Option.some.inj hd
    exact Scan.isIdentChar_of_isBlank (he b List.mem_cons_self)

theorem Kind.ofStatement_exportDefault (n : Nat) (hb : ∀ c ∈ b, isBlank c) (hn : b ≠ [])
    (he : ∀ c ∈ e, isBlank c) {c : Char} (hc : isBlank c = false)
    (hi : e = [] → isIdentChar c = false) (s : List Char) :
    ofStatement n ("export".toList ++ (b ++ ("default".toList ++ (e ++ c :: s)))) =
      .exportDefault (if c = '{' then some (n - size ('{' :: s)) else none) := by
  have himport : afterKeyword? "import".toList
      ("export".toList ++ (b ++ ("default".toList ++ (e ++ c :: s)))) = none :=
    afterKeyword?_of_head (c := 'i') rfl (by simp)
  have keyword : trimStart (b ++ ("default".toList ++ (e ++ c :: s))) =
      "default".toList ++ (e ++ c :: s) := trimStart_pad hb (forall_head?_cons (by decide))
  have value : trimStart (e ++ c :: s) = c :: s := trimStart_pad he (forall_head?_cons hc)
  simp only [ofStatement, himport, afterKeyword?_export hb hn, keyword, ofExport,
    afterKeyword?_default he hi, value]
  by_cases hbrace : c = '{'
  · rw [if_pos hbrace, hbrace]
    rfl
  · rw [if_neg hbrace]
    split
    · rename_i h
      exact absurd (List.cons.inj h).1 hbrace
    · rfl

/-- What begins like a default export of an object is one. -/
theorem Kind.ofStatement_exportOpening (n : Nat) (hb : ∀ c ∈ b, isBlank c) (hn : b ≠ [])
    (he : ∀ c ∈ e, isBlank c) (s : List Char) :
    ofStatement n (exportOpening b e ++ s) = .exportDefault (some (n - size ('{' :: s))) := by
  have text : exportOpening b e ++ s =
      "export".toList ++ (b ++ ("default".toList ++ (e ++ '{' :: s))) := by
    simp [exportOpening_eq]
  have brace : isIdentChar '{' = false := by decide
  rw [text, ofStatement_exportDefault n hb hn he (by decide) fun _ => brace, if_pos rfl]

theorem Kind.exists_exportOpening {n k : Nat} (h : ofStatement n s = .exportDefault (some k)) :
    ∃ b e t, s = exportOpening b e ++ t ∧ b ≠ [] ∧ (∀ c ∈ b, isBlank c) ∧ (∀ c ∈ e, isBlank c) ∧
      k = n - size ('{' :: t) := by
  obtain ⟨rest, hr, hs⟩ := afterExport_of_ofStatement (n := n) (s := s) (by simp [h])
  obtain ⟨rfl, hh⟩ := afterKeyword?_eq_some.mp hr
  rw [hs] at h
  unfold ofExport at h
  split at h
  · rename_i u hu
    split at h
    · rename_i t ht
      obtain ⟨b, hb, hrest⟩ := exists_dropWhile isBlank rest
      obtain ⟨e, he, hue⟩ := exists_dropWhile isBlank u
      have hd := eq_append_of_keyword hu
      replace hrest : rest = b ++ trimStart rest := hrest
      replace hue : u = e ++ trimStart u := hue
      refine ⟨b, e, t, ?_, ?_, hb, he, ?_⟩
      · rw [hrest, hd, hue, ht]
        simp [exportOpening_eq]
      · rintro rfl
        rw [hrest, hd] at hh
        exact absurd (hh 'd' rfl) (by decide)
      · simpa using h.symm
    · simp at h
  · split at h
    · simp at h
    · unfold ofList at h
      split at h <;> simp at h
    · simp at h

namespace Scan

/-- Behind marks after which an expression is expected, the text before them is not looked at. -/
theorem regexAllowed_append_mark {c d : Char} (hc : c ∈ ['{', ',']) (hd : d ∈ ['{', ','])
    (s p q : List Char) : regexAllowed (s ++ c :: p) = regexAllowed (s ++ d :: q) := by
  have mark {a : Char} (ha : a ∈ ['{', ',']) : isSpace a = false ∧ isIdentChar a = false ∧
      a ∉ [')', ']', '}', '"', '\'', '`'] := by
    rcases List.mem_pair.mp ha with rfl | rfl <;> decide
  have take {a : Char} (ha : a ∈ ['{', ',']) (x r : List Char) :
      (x ++ a :: r).takeWhile isIdentChar = x.takeWhile isIdentChar := by
    rw [List.takeWhile_append, List.takeWhile_cons_of_neg (by simp [(mark ha).2.1])]
    split
    · rename_i h
      rw [List.append_nil, List.takeWhile_prefix isIdentChar |>.eq_of_length h]
    · rfl
  unfold regexAllowed
  rw [dropWhile_append_cons (mark hc).1, dropWhile_append_cons (mark hd).1]
  cases s.dropWhile isSpace with
  | nil => simp only [List.nil_append, mark hc, mark hd, Bool.false_eq_true, if_false]
  | cons z x =>
    simp only [List.cons_append]
    rw [← List.cons_append, ← List.cons_append, take hc, take hd]

/-- Behind the brace that begins an object, and behind its first entry, statements are alike. -/
theorem alike_joined {st u : Scan} (hst : Ready [] st) (hu : Settled ['{'] u) :
    Alike { st.pushLast '{' with brackets := '{' :: st.brackets } (u.pushLast ',') :=
  ⟨(congrArg ('{' :: ·) hst.brackets).trans hu.brackets.symm,
    show isComplete (some '{') = isComplete (some ',') by decide, rfl,
    fun s => regexAllowed_append_mark (by simp) (by simp) s _ _⟩

theorem takes_joinedOpening (hname : ∀ c ∈ name, isIdentChar c = true) :
    Takes (Settled []) ("export default ".toList ++ ('{' :: ' ' :: name)) (Settled ['{']) := by
  have keywords : ∀ c ∈ "export default ".toList, isSoft [] c := by
    unfold isSoft
    exact forall_mem_of_all (by decide)
  have entry : ∀ c ∈ ' ' :: name, isSoft ['{'] c := by
    intro c hc
    rcases List.mem_cons.mp hc with rfl | hc
    · exact .inr ⟨by decide, by decide⟩
    · exact .inl (isIdle_of_isIdentChar (hname c hc))
  exact (takes_soft keywords).append (takes_brace.append (takes_soft entry))

/-- A default export of an object goes on behind its brace as it does behind a first entry. -/
theorem statement_joinedOpening (hb : ∀ c ∈ b, isBlank c) (he : ∀ c ∈ e, isBlank c)
    (hname : ∀ c ∈ name, isIdentChar c = true)
    (h : start.statement (exportOpening b e ++ s) = .ok (exportOpening b e ++ x, y)) :
    start.statement (joinedOpening name ++ s) = .ok (joinedOpening name ++ x, y) := by
  let words := "export".toList ++ (b ++ ("default".toList ++ e))
  have parts (t : List Char) : exportOpening b e ++ t = words ++ '{' :: t := by
    simp [exportOpening_eq, words]
  rw [parts, parts] at h
  obtain ⟨st, hst, hs⟩ := exists_reads_statement h (by simp)
  have ready : Ready [] st := by
    refine hst.ready ⟨rfl, rfl, rfl⟩ fun c hc => ?_
    have letters (w : List Char) (hw : w.all isIdentChar = true) (hc : c ∈ w) :
        isIdentChar c = true := List.all_eq_true.mp hw c hc
    simp only [words, List.mem_append] at hc
    rcases hc with hc | hc | hc | hc
    · exact .inl (letters _ (by decide) hc)
    · exact .inr (hb c hc)
    · exact .inl (letters _ (by decide) hc)
    · exact .inr (he c hc)
  rcases statement_cons.mp hs with ⟨v, d, hm, hs, hd⟩ | ⟨hend, -⟩ | ⟨hend, -⟩
  · obtain rfl := (List.cons.inj hd).2
    rw [step_brace ready.mode] at hm
    cases hm
    obtain ⟨u, hu, hset⟩ := takes_joinedOpening hname start (',' :: s) ⟨rfl, rfl⟩
    have comma : Reads u [','] s (u.pushLast ',') :=
      .cons (step_idle hset.mode (by decide) s) .nil
    have joined : joinedOpening name = "export default ".toList ++ ('{' :: ' ' :: name) ++ [','] := by
      simp [joinedOpening, exportOpening_eq]
    rw [joined]
    exact (hu.append comma).statement (statement_congr (alike_joined ready hset) hs)
  · exact absurd (step_eq_endsBefore hend) (by decide)
  · exact absurd (step_eq_endsWith hend).1 (by decide)

end Scan

end

end StyleExports.EsModule
