import StyleExports.Fragment
import StyleExports.Proofs.EsModule.Balanced
import StyleExports.Proofs.EsModule.Declarators
import StyleExports.Proofs.EsModule.DefaultExport

namespace StyleExports

open Text EsModule

theorem Identifier.word_of_isValid {name : String} (h : Identifier.isValid name = true) :
    name.toList ≠ [] ∧ ∀ c ∈ name.toList, isIdentChar c = true := by
  have hs := (Bool.and_eq_true_iff.mp h).1
  cases hn : name.toList with
  | nil => simp [hn, isShape] at hs
  | cons c s =>
    rw [hn, isShape, Bool.and_eq_true, List.all_eq_true] at hs
    refine ⟨by simp, fun d hd => ?_⟩
    rcases List.mem_cons.mp hd with rfl | hd
    · have hc := hs.1
      simp only [isStart, Bool.or_eq_true] at hc
      simp only [isIdentChar, Char.isAlphanum, Bool.or_eq_true]
      exact hc.imp_left fun hc => hc.imp_left .inl
    · exact hs.2 d hd

theorem Tree.balanced_jsonMembers (t : Tree) : ∀ w ∈ t.jsonMembers, Balanced w := by
  have colon : Scan.isIdle ':' = true := by decide
  have comma : Balanced [','] := .cons (.inl (by decide)) .nil
  induction t with
  | empty => simp [jsonMembers]
  | leaf k x rest ih =>
    intro w hw
    rcases List.mem_cons.mp hw with rfl | hw
    · exact .quoted _ (.cons (.inl colon) (.encode _))
    · exact ih w hw
  | node k u rest ihu ih =>
    intro w hw
    rcases List.mem_cons.mp hw with rfl | hw
    · exact .quoted _ (.cons (.inl colon) (.object (.join comma ihu)))
    · exact ih w hw

namespace Value

theorem literal_cases (v : Value) : (∃ x, v.literal = Quoted.encode x) ∨
    ∃ u, Balanced u ∧ v.literal = '{' :: (u ++ ['}']) := by
  cases v with
  | leaf x => exact .inl ⟨x.toList, rfl⟩
  | node t =>
    refine .inr ⟨join [','] t.jsonMembers, ?_, rfl⟩
    exact .join (.cons (.inl (by decide)) .nil) t.balanced_jsonMembers

theorem takes_literal {bs : List Char} (v : Value) :
    Scan.Takes (Scan.Settled bs) v.literal (Scan.Settled bs) := by
  rcases v.literal_cases with ⟨x, hx⟩ | ⟨u, hu, hv⟩
  · rw [hx]
    exact Scan.takes_encode x
  · rw [hv]
    have inner : Scan.Takes (Scan.Settled bs) _ (Scan.Ready bs) :=
      Scan.takes_braces (Scan.takes_balanced hu (by simp))
    exact inner.imp (fun _ h => h) fun _ h => h.settled

theorem spans_literal {sep : Char} {d : Nat} (v : Value) :
    Spans sep d .plain v.literal d .plain := by
  rcases v.literal_cases with ⟨x, hx⟩ | ⟨u, hu, hv⟩
  · rw [hx]
    exact spans_encode x
  · rw [hv]
    exact spans_braces (spans_balanced hu d)

theorem balanced_literal (v : Value) : Balanced v.literal := by
  rcases v.literal_cases with ⟨x, hx⟩ | ⟨u, hu, hv⟩
  · rw [hx]
    exact .encode x
  · rw [hv]
    exact .object hu

theorem exists_literal_concat (v : Value) : ∃ w c, v.literal = w ++ [c] ∧ c ≠ ';' := by
  rcases v.literal_cases with ⟨x, hx⟩ | ⟨u, -, hv⟩
  · obtain ⟨w, hw, -⟩ := Literal.exists_reads_encodeBody x
    exact ⟨'"' :: w, '"', by rw [hx, Quoted.encode, hw]; rfl, by decide⟩
  · exact ⟨'{' :: u, '}', hv, by decide⟩

end Value

namespace Fragment

theorem declaredNames_constant {name : String} (h : Identifier.isValid name = true) (v : Value) :
    declaredNames ("const ".toList ++ (name.toList ++ (" = ".toList ++ (v.literal ++ [';'])))) =
      [name] := by
  obtain ⟨hn, hw⟩ := Identifier.word_of_isValid h
  obtain ⟨w, c, hv, hc⟩ := v.exists_literal_concat
  let ps : List Piece := [⟨[' '], name.toList⟩, ⟨[' '], ['=']⟩, ⟨[' '], v.literal⟩, ⟨[], [';']⟩]
  have shape : "const ".toList ++ (name.toList ++ (" = ".toList ++ (v.literal ++ [';']))) =
      "const".toList ++ Piece.text ps := by simp [Piece.text, ps]
  have whole : identifier? name.toList = some name := by
    rw [identifier?_of_word hn hw, String.ofList_toList]
  have equals : Spans ',' 0 .plain ['='] 0 .plain := spans_idle (.inl (by decide)) (.inl (by decide))
  have value : Nested 0 [⟨[' '], ['=']⟩, ⟨[' '], v.literal⟩] 0 :=
    .cons spans_blank equals (.cons spans_blank v.spans_literal .nil)
  have word : IsWord name.toList := ⟨hn, fun d hd => by simp [isWordChar, hw d hd]⟩
  have declares : Declares ps (identifier? name.toList).toList :=
    .last (forall_mem_of_all (by decide)) word value (spans_spaces (by simp) (by decide))
  have space (s t : List Char) : Piece.IsApart s (' ' :: t) := fun _ _ _ =>
    forall_head?_cons (by decide)
  have apart : Piece.AreApart (⟨[], "const".toList⟩ :: ps) :=
    ⟨space _ _, space _ _, space _ _, fun _ _ _ => forall_head?_cons (by decide),
      fun _ _ _ => by simp [Piece.text], trivial⟩
  have last (s : List Char) (hs : Piece.text ps = s ++ [';']) : s.getLast? ≠ some ';' := by
    have whole : ' ' :: (name.toList ++ (" = ".toList ++ w)) ++ [c] ++ [';'] = s ++ [';'] := by
      rw [← hs]
      simp [Piece.text, ps, hv]
    rw [← List.append_cancel_right whole, List.getLast?_concat]
    simpa using hc
  rw [shape, declaredNames_of_declares (by decide) declares apart last, whole]
  rfl

theorem constant_eq (name literal : List Char) : constant name literal =
    "export ".toList ++ ("const ".toList ++ (name ++ (" = ".toList ++ (literal ++ [';'])))) := by
  unfold constant
  simp only [List.append_assoc]
  rfl

theorem closes_constant {name : String} (h : Identifier.isValid name = true) (v : Value) :
    Scan.start.closes (constant name.toList v.literal) = true := by
  obtain ⟨-, hw⟩ := Identifier.word_of_isValid h
  have keywords : ∀ c ∈ "export const ".toList, Scan.isSoft [] c := by
    unfold Scan.isSoft
    exact forall_mem_of_all (by decide)
  have equals : ∀ c ∈ " = ".toList, Scan.isSoft [] c := by
    unfold Scan.isSoft
    exact forall_mem_of_all (by decide)
  have word : ∀ c ∈ name.toList, Scan.isSoft [] c := fun c hc =>
    .inl (Scan.isIdle_of_isIdentChar (hw c hc))
  unfold constant
  exact Scan.closes_of_takes ((((Scan.takes_soft keywords).append (Scan.takes_soft word)).append
    (Scan.takes_soft equals)).append v.takes_literal)

/-- The line of a constant is read as a declaration of its name. -/
theorem ofStatement_constant (n : Nat) {name : String} (h : Identifier.isValid name = true)
    (v : Value) : Kind.ofStatement n (constant name.toList v.literal) = .declaration [name] := by
  have hd := declaredNames_constant h v
  rw [constant_eq, Kind.ofStatement_export n (by rw [hd]; simp), hd]

theorem balanced_row (e : String × Value) : Balanced (row e) := by
  unfold row
  split
  · rename_i h
    exact .of_all fun c hc => .inl (Scan.isIdle_of_isIdentChar ((Identifier.word_of_isValid h).2 c hc))
  · exact .quoted _ (.cons (.inl (by decide)) (.cons (.inr (by decide)) e.2.balanced_literal))

theorem exists_defaultExport (t : Tree) : ∃ u, Balanced u ∧
    defaultExport t = "export default ".toList ++ ('{' :: (u ++ ['}'])) ++ [';'] := by
  unfold defaultExport
  cases ht : t.entries with
  | nil => exact ⟨[], .nil, rfl⟩
  | cons e es =>
    refine ⟨"\n\t".toList ++ join [',', '\n', '\t'] ((e :: es).map row) ++ ['\n'], ?_, ?_⟩
    · have gap : Balanced "\n\t".toList := .of_all (forall_mem_of_all (by decide))
      have sep : Balanced [',', '\n', '\t'] := .of_all (forall_mem_of_all (by decide))
      have rows : ∀ w ∈ (e :: es).map row, Balanced w := by
        intro w hw
        obtain ⟨d, -, rfl⟩ := List.mem_map.mp hw
        exact balanced_row d
      exact (gap.append (.join sep rows)).append (.of_all (forall_mem_of_all (by decide)))
    · have opening : "export default \x7b\n\t".toList =
          "export default ".toList ++ '{' :: "\n\t".toList := rfl
      have closing : "\n\x7d;".toList = ['\n', '}', ';'] := rfl
      simp only [opening, closing, List.append_assoc, List.cons_append, List.nil_append]

/-- A line that exports a constant is read as that declaration again. -/
theorem stable_constant {name : String} (h : Identifier.isValid name = true) (v : Value) :
    Item.Stable ⟨constant name.toList v.literal, 0, 0, .declaration [name]⟩ := by
  have head : (constant name.toList v.literal).head? = some 'e' := by
    rw [constant_eq]
    rfl
  refine ⟨isLine_of_closes head (by decide) (by decide) (by decide) (closes_constant h v), ?_⟩
  intro _
  change (Kind.ofStatement 0 (constant name.toList v.literal)).seen = _
  rw [ofStatement_constant 0 h]

theorem stable_exportDefault {c : Char} {s : List Char} (hc : isBlank c = false)
    (h : Scan.Takes (Scan.Settled []) (c :: s) (Scan.Settled [])) :
    Item.Stable ⟨"export default ".toList ++ c :: s ++ [';'], 0, 0,
      .exportDefault (if c = '{' then some 0 else none)⟩ := by
  have keywords : ∀ d ∈ "export default ".toList, Scan.isSoft [] d := by
    unfold Scan.isSoft
    exact forall_mem_of_all (by decide)
  have closes := Scan.closes_of_takes ((Scan.takes_soft keywords).append h)
  have blank : ∀ d ∈ [' '], isBlank d := forall_mem_of_all (by decide)
  have kind : Kind.ofStatement 0 ("export default ".toList ++ c :: s ++ [';']) = _ :=
    Kind.ofStatement_exportDefault 0 blank (by simp) blank hc (by simp) (s ++ [';'])
  refine ⟨isLine_of_closes rfl (by decide) (by decide) (by decide) closes, fun _ => ?_⟩
  simp only
  rw [kind]
  split <;> rfl

theorem stable_object {u : List Char} (hu : Balanced u) :
    Item.Stable ⟨"export default ".toList ++ ('{' :: (u ++ ['}'])) ++ [';'], 0, 0,
      .exportDefault (some 0)⟩ := by
  have object : Scan.Takes (Scan.Settled []) _ (Scan.Ready []) :=
    Scan.takes_braces (Scan.takes_balanced hu (by simp))
  have stable := stable_exportDefault (by decide) (object.imp (fun _ h => h) fun _ h => h.settled)
  rwa [if_pos rfl] at stable

theorem stable_defaultExport (t : Tree) :
    Item.Stable ⟨defaultExport t, 0, 0, .exportDefault (some 0)⟩ := by
  obtain ⟨u, hu, ht⟩ := exists_defaultExport t
  rw [ht]
  exact stable_object hu

/-- The lines of a tree as items of a module. -/
def items (t : Tree) : EsModule :=
  ((t.entries.filter fun e => Identifier.isValid e.1).map fun e =>
    ⟨constant e.1.toList e.2.literal, 0, 0, .declaration [e.1]⟩) ++
      [⟨defaultExport t, 0, 0, .exportDefault (some 0)⟩]

theorem toText_items (t : Tree) : EsModule.toText (items t) = text t := by
  unfold items text constants
  rw [toText_eq_flatMap, List.flatMap_append, List.flatMap_append, List.flatMap_map,
    List.flatMap_map]
  rfl

theorem stable_of_mem_items {t : Tree} {i : Item} (h : i ∈ items t) : i.Stable := by
  rcases List.mem_append.mp h with h | h
  · obtain ⟨e, he, rfl⟩ := List.mem_map.mp h
    exact stable_constant (List.mem_filter.mp he).2 e.2
  · obtain rfl := List.mem_singleton.mp h
    exact stable_defaultExport t

/-- The module text of a tree is read as its lines. -/
theorem ofText?_text (t : Tree) : EsModule.ofText? (text t) = .ok (EsModule.reread (items t)) := by
  rw [← toText_items]
  exact ofText?_toText fun i hi => stable_of_mem_items hi

theorem exportedNames_items (t : Tree) : (items t).exportedNames = names t := by
  have constants (es : List (String × Value)) :
      (es.map fun e => (⟨constant e.1.toList e.2.literal, 0, 0, .declaration [e.1]⟩ : Item)).flatMap
        Item.exportedNames = es.map (·.1) := by
    induction es with
    | nil => rfl
    | cons e es ih =>
      rw [List.map_cons, List.flatMap_cons, ih]
      rfl
  unfold items names Tree.keys
  rw [EsModule.exportedNames, List.flatMap_append, constants, List.filter_map]
  exact List.append_nil _

theorem exportedNames_reread_items (t : Tree) :
    (EsModule.reread (items t)).exportedNames = names t :=
  (exportedNames_reread fun _ hi => stable_of_mem_items hi).trans (exportedNames_items t)

theorem kind_of_mem_reread_items {t : Tree} {j : Item} (h : j ∈ EsModule.reread (items t)) :
    (∃ names, j.kind = .declaration names) ∨ ∃ brace, j.kind = .exportDefault brace := by
  obtain ⟨i, hi, hv⟩ := exists_of_mem_reread (fun _ hi => stable_of_mem_items hi) h
  have hk : i.kind.seen = j.kind.seen := congrArg Prod.fst hv
  rcases List.mem_append.mp hi with hi | hi
  · obtain ⟨e, -, rfl⟩ := List.mem_map.mp hi
    exact .inl ⟨_, Kind.eq_declaration_of_seen hk.symm⟩
  · obtain rfl := List.mem_singleton.mp hi
    revert hk
    cases j.kind <;> simp [Kind.seen]

end Fragment

end StyleExports
