import StyleExports.Proofs.Fragment
import StyleExports.Proofs.Tree.Json

namespace StyleExports.Fragment

open Text EsModule

section

variable {t u : Tree} {c d : Char} {s r v w : List Char}

/-- A word ends where other text begins. -/
theorem word_append_inj (hv : ∀ x ∈ v, isIdentChar x = true) (hw : ∀ x ∈ w, isIdentChar x = true)
    (hc : isIdentChar c = false) (hd : isIdentChar d = false) (h : v ++ c :: s = w ++ d :: r) :
    v = w ∧ c :: s = d :: r := by
  have word {x : List Char} {e : Char} (hx : ∀ y ∈ x, isIdentChar y = true)
      (he : isIdentChar e = false) (q : List Char) :
      (x ++ e :: q).takeWhile isIdentChar = x := by
    rw [List.takeWhile_append_of_pos hx, List.takeWhile_cons_of_neg (by simp [he]), List.append_nil]
  have same : v = w := by rw [← word hv hc s, h, word hw hd r]
  subst same
  exact ⟨rfl, List.append_cancel_left h⟩

/-- What the row of an entry tells: the name, and the value unless it has a constant. -/
def slot (e : String × Value) : String × Option Value :=
  (e.1, if Identifier.isValid e.1 then none else some e.2)

theorem tells_row (e : String × Value) : Tells (isIdentChar · = false) row slot e := by
  intro e' c d s r hc hd h
  have quoted (e : String × Value) (he : ¬Identifier.isValid e.1 = true) (q : List Char) :
      row e ++ q = Quoted.encode e.1.toList ++ (':' :: ' ' :: (e.2.literal ++ q)) := by
    rw [row, if_neg he, List.append_assoc]
    rfl
  -- No word begins with a quotation mark.
  have apart (e e' : String × Value) (he : Identifier.isValid e.1 = true)
      (he' : ¬Identifier.isValid e'.1 = true) (q q' : List Char) : row e ++ q ≠ row e' ++ q' := by
    obtain ⟨hn, hw⟩ := Identifier.word_of_isValid he
    obtain ⟨x, v, hx⟩ := List.exists_cons_of_ne_nil hn
    rw [row, if_pos he, quoted e' he', hx]
    intro heq
    have hq : x = '"' := (List.cons.inj heq).1
    have hi := hw x (by rw [hx]; exact List.mem_cons_self)
    rw [hq] at hi
    exact absurd hi (by decide)
  unfold slot
  by_cases he : Identifier.isValid e.1 = true
  · by_cases he' : Identifier.isValid e'.1 = true
    · rw [row, row, if_pos he, if_pos he'] at h
      obtain ⟨name, rest⟩ := word_append_inj (Identifier.word_of_isValid he).2
        (Identifier.word_of_isValid he').2 hc hd h
      rw [if_pos he, if_pos he', String.toList_inj.mp name]
      exact ⟨rfl, rest⟩
    · exact absurd h (apart e e' he he' _ _)
  · by_cases he' : Identifier.isValid e'.1 = true
    · exact absurd h.symm (apart e' e he' he _ _)
    · rw [quoted e he, quoted e' he'] at h
      obtain ⟨name, rest⟩ := Quoted.encode_append_inj h
      obtain ⟨value, after⟩ := Value.literal_append_inj (List.cons.inj (List.cons.inj rest).2).2
      rw [if_neg he, if_neg he', String.toList_inj.mp name, value]
      exact ⟨rfl, after⟩

/-- The default export tells every row of a tree. -/
theorem slots_of_defaultExport (h : defaultExport t = defaultExport u) :
    t.entries.map slot = u.entries.map slot := by
  have rows {t : Tree} {e : String × Value} {es : List (String × Value)} (he : t.entries = e :: es) :
      defaultExport t = "export default \x7b\n\t".toList ++
        (join [',', '\n', '\t'] ((e :: es).map row) ++ "\n\x7d;".toList) := by
    simp only [defaultExport, he, List.append_assoc]
  have none {t : Tree} (he : t.entries = []) : defaultExport t = "export default \x7b\x7d;".toList := by
    simp only [defaultExport, he]
  -- After the brace comes a brace if the tree is empty, and a line feed if it is not.
  have apart (q : List Char) : "export default \x7b\x7d;".toList ≠ "export default \x7b\n\t".toList ++ q := by
    intro heq
    have cut := congrArg (fun s => s[16]?) heq
    simp at cut
  cases ht : t.entries with
  | nil =>
    cases hu : u.entries with
    | nil => rfl
    | cons e es =>
      rw [none ht, rows hu] at h
      exact absurd h (apart _)
  | cons e es =>
    cases hu : u.entries with
    | nil =>
      rw [none hu, rows ht] at h
      exact absurd h.symm (apart _)
    | cons e' es' =>
      rw [rows ht, rows hu] at h
      have comma : isIdentChar ',' = false := by decide
      have feed : isIdentChar '\n' = false := by decide
      exact (join_append_inj (p := (isIdentChar · = false)) comma feed (by decide)
        (fun z _ => tells_row z) (List.append_cancel_left h)).1

/-- The constants tell the entries that are exported. -/
theorem valid_of_constants (h : constants t = constants u) :
    t.entries.filter (fun e => Identifier.isValid e.1) =
      u.entries.filter fun e => Identifier.isValid e.1 := by
  have one {e e' : String × Value} (he : Identifier.isValid e.1 = true)
      (he' : Identifier.isValid e'.1 = true)
      (h : constant e.1.toList e.2.literal = constant e'.1.toList e'.2.literal) : e = e' := by
    rw [constant_eq, constant_eq] at h
    have line := List.append_cancel_left (List.append_cancel_left h)
    obtain ⟨name, rest⟩ := word_append_inj (c := ' ') (d := ' ') (Identifier.word_of_isValid he).2
      (Identifier.word_of_isValid he').2 (by decide) (by decide) line
    have equals : " = ".toList ++ (e.2.literal ++ [';']) = " = ".toList ++ (e'.2.literal ++ [';']) := rest
    have value := (Value.literal_append_inj (List.append_cancel_left equals)).1
    exact Prod.ext (String.toList_inj.mp name) value
  have all (es es' : List (String × Value)) (he : ∀ e ∈ es, Identifier.isValid e.1 = true)
      (he' : ∀ e ∈ es', Identifier.isValid e.1 = true)
      (h : (es.map fun e => constant e.1.toList e.2.literal) =
        es'.map fun e => constant e.1.toList e.2.literal) : es = es' := by
    induction es generalizing es' with
    | nil => exact (List.map_eq_nil_iff.mp h.symm).symm
    | cons e es ih =>
      cases es' with
      | nil => simp at h
      | cons e' es' =>
        rw [List.forall_mem_cons] at he he'
        obtain ⟨first, rest⟩ := List.cons.inj h
        rw [one he.1 he'.1 first, ih es' he.2 he'.2 rest]
  exact all _ _ (fun e he => (List.mem_filter.mp he).2) (fun e he => (List.mem_filter.mp he).2) h

theorem entries_of_slots {es es' : List (String × Value)} (hs : es.map slot = es'.map slot)
    (hf : es.filter (fun e => Identifier.isValid e.1) =
      es'.filter fun e => Identifier.isValid e.1) : es = es' := by
  induction es generalizing es' with
  | nil => exact (List.map_eq_nil_iff.mp hs.symm).symm
  | cons e es ih =>
    cases es' with
    | nil => simp at hs
    | cons e' es' =>
      obtain ⟨first, rest⟩ := List.cons.inj hs
      have name : e.1 = e'.1 := (Prod.mk.inj first).1
      by_cases he : Identifier.isValid e.1 = true
      · have he' : Identifier.isValid e'.1 = true := name ▸ he
        rw [List.filter_cons, List.filter_cons, if_pos he, if_pos he'] at hf
        rw [(List.cons.inj hf).1, ih rest (List.cons.inj hf).2]
      · have he' : ¬Identifier.isValid e'.1 = true := name ▸ he
        rw [List.filter_cons, List.filter_cons, if_neg he, if_neg he'] at hf
        have value : e.2 = e'.2 := by simpa [slot, he, he'] using congrArg Prod.snd first
        rw [Prod.ext name value, ih rest hf]

theorem views_reread_items (t : Tree) : (EsModule.reread (items t)).map Item.view =
    ((t.entries.filter fun e => Identifier.isValid e.1).map fun e =>
      (.declaration [e.1], constant e.1.toList e.2.literal)) ++
      [(.exportDefault (some 0), defaultExport t)] := by
  rw [view_reread fun i hi => stable_of_mem_items hi, items, List.map_append, List.map_map]
  rfl

theorem text_items (t : Tree) : (items t).map Item.text = constants t ++ [defaultExport t] := by
  rw [items, constants, List.map_append, List.map_map]
  rfl

theorem text_reread_items (t : Tree) : (EsModule.reread (items t)).map Item.text =
    constants t ++ [defaultExport t] := by
  have texts := congrArg (List.map Prod.snd) (views_reread_items t)
  rw [List.map_append, List.map_map, List.map_map] at texts
  exact texts

theorem text_injective : Function.Injective text := by
  intro t u h
  have read : EsModule.reread (items t) = EsModule.reread (items u) := by
    have ht := ofText?_text t
    rw [h, ofText?_text u] at ht
    exact (Except.ok.inj ht).symm
  have texts := congrArg (List.map Item.text) read
  rw [text_reread_items, text_reread_items] at texts
  obtain ⟨constants, rows⟩ := List.append_inj' texts rfl
  have slots := slots_of_defaultExport (List.cons.inj rows).1
  exact Tree.entries_injective (entries_of_slots slots (valid_of_constants constants))

end

/-- The text of a tree, whatever its names and values hold, is read as one declaration for every
exported name, in order, and then the default export of an object; written again it is the same text,
and it is the text of no other tree. -/
theorem text_legible :
    (∀ t : Tree, ∃ ds i, EsModule.ofText? (text t) = .ok (ds ++ [i]) ∧
      ds.map Item.kind = (names t).map (fun n => Kind.declaration [n]) ∧ ds.map Item.text = constants t ∧
      (∃ brace, i.kind = .exportDefault (some brace)) ∧ i.text = defaultExport t ∧
      EsModule.exportedNames (ds ++ [i]) = names t ∧ EsModule.toText (ds ++ [i]) = text t) ∧
    Function.Injective text := by
  refine ⟨fun t => ?_, text_injective⟩
  have texts := text_reread_items t
  have same : EsModule.toText (EsModule.reread (items t)) = text t :=
    (toText_congr (texts.trans (text_items t).symm)).trans (toText_items t)
  obtain ⟨ds, js, hr, hds, hjs⟩ := List.map_eq_append_iff.mp (views_reread_items t)
  obtain ⟨i, rfl, hi⟩ := List.map_eq_singleton_iff.mp hjs
  rw [hr, List.map_append] at texts
  obtain ⟨front, last⟩ := List.append_inj' texts rfl
  refine ⟨ds, i, hr ▸ ofText?_text t, ?_, front, ?_, (List.cons.inj last).1,
    hr ▸ exportedNames_reread_items t, hr ▸ same⟩
  · have seen : ds.map (fun d => d.kind.seen) = (names t).map fun n => Kind.declaration [n] := by
      have kinds := congrArg (List.map Prod.fst) hds
      rw [List.map_map, List.map_map] at kinds
      rw [names, Tree.keys, List.filter_map, List.map_map]
      exact kinds
    have declared : ∀ d ∈ ds, ∃ n, d.kind.seen = .declaration [n] := by
      intro d hd
      have hm := List.mem_map_of_mem (f := fun d : Item => d.kind.seen) hd
      rw [seen] at hm
      obtain ⟨n, -, hn⟩ := List.mem_map.mp hm
      exact ⟨n, hn.symm⟩
    rw [← seen]
    apply List.map_congr_left
    intro d hd
    obtain ⟨n, hn⟩ := declared d hd
    rw [hn, Kind.eq_declaration_of_seen hn]
  · have seen : i.kind.seen = .exportDefault (some 0) := congrArg Prod.fst hi
    revert seen
    rcases i.kind with - | - | - | - | - | (- | brace) | - | -
    case exportDefault.some => exact fun _ => ⟨brace, rfl⟩
    all_goals simp [Kind.seen]

end StyleExports.Fragment
