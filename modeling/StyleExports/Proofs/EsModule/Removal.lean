import StyleExports.Proofs.EsModule.ExportList
import StyleExports.Proofs.EsModule.Separate

namespace StyleExports.EsModule

open Text

section

variable {s : List Char} {v : Bool} {names : List String} {m m' : EsModule} {i j : Item}

theorem IsOpen.withoutExport {n : Nat} (h : IsOpen s v) (hk : Kind.ofStatement n s = .declaration names)
    (hn : names ≠ []) : IsOpen (Item.withoutExport s) v := by
  obtain ⟨r, c, t, hr, ht, hw, -, hc⟩ := exists_withoutExport hk hn
  obtain ⟨hb, hsemi, hslash, -⟩ := ne_of_mem_declarationHeads c hc
  have letters : ∀ d ∈ "export".toList, isIdentChar d = true := forall_mem_of_all (by decide)
  obtain ⟨b, rfl, alike⟩ := Scan.stepAlike_afterKeyword letters hr ht hb hslash
  obtain ⟨u, hu, hrests, hbreaks⟩ := h.rests
  obtain ⟨x, hx, hxu⟩ := hu.split
  obtain ⟨w, hread, hw'⟩ := hxu.congr_cons (alike hx)
  rw [hw]
  refine ⟨⟨c, t, rfl, by simp [hb, hsemi], ?_⟩, ?_, w, hread, hw'.rests hrests, ?_⟩
  · cases t with
    | nil => exact Chunk.comment?_singleton c
    | cons d t => exact Chunk.comment?_eq_none.mpr (.inl hslash)
  · intro d hd
    apply h.last d
    rwa [List.getLast?_append_of_ne_nil _ (by simp)]
  · rw [← hw'.breaks, hbreaks]

theorem Parted.isRead {ls : List (List Char × Bool)} (h : Parted ls) :
    ∀ l ∈ ls, IsLine l.1 l.2 ∨ l.2 = false ∧ ∃ v, IsOpen l.1 v := by
  induction h with
  | nil => simp
  | line h _ ih => exact List.forall_mem_cons.mpr ⟨.inl h, ih⟩
  | last h => exact List.forall_mem_cons.mpr ⟨.inr ⟨rfl, _, h⟩, by simp⟩
  | broken h _ _ ih => exact List.forall_mem_cons.mpr ⟨.inr ⟨rfl, _, h⟩, ih⟩

theorem isRead_of_ofText? (h : ofText? s = .ok m) : ∀ i ∈ m, i.IsRead := by
  obtain ⟨ks, hc, rfl⟩ := ofText?_eq_ok.mp h
  intro i hi
  obtain ⟨k, hk, rfl⟩ := List.mem_map.mp hi
  have read := (parted_of_chunks hc).isRead _ (List.mem_map_of_mem hk)
  rw [Chunk.face, ← Item.kind_ofChunk_beq k, beq_eq_false_iff_ne] at read
  exact read

theorem kind_of_ofText? (h : ofText? s = .ok m) (hi : i ∈ m) (hk : i.kind ≠ .comment) :
    Kind.ofStatement i.stop i.text = i.kind := by
  obtain ⟨ks, -, rfl⟩ := ofText?_eq_ok.mp h
  obtain ⟨k, -, rfl⟩ := List.mem_map.mp hi
  unfold Item.ofChunk at hk ⊢
  cases hb : k.isComment with
  | true => simp [hb] at hk
  | false => rfl

namespace Item

theorem rewritten_of_retainSpecifiers {keep : String → Bool} (h : i.retainSpecifiers keep = some j) :
    j = i ∨ ∃ es source, j = i.rewritten es source := by
  unfold retainSpecifiers at h
  split at h
  · simp only at h
    split at h
    · exact .inl (Option.some.inj h).symm
    split at h
    · simp at h
    · exact .inr ⟨_, _, (Option.some.inj h).symm⟩
  · exact .inl (Option.some.inj h).symm

theorem demoted_of_mem_retainNames {keep : String → Bool} (h : j ∈ i.retainNames keep) :
    j = i ∨ (∃ es source, j = i.rewritten es source) ∨
      ∃ names, i.kind = .declaration names ∧ names ≠ [] ∧ j = i.demoted names := by
  unfold retainNames at h
  split at h
  · rename_i names hk
    simp only at h
    split at h
    · exact .inl (List.mem_singleton.mp h)
    split at h
    · simp at h
    · rename_i hkept
      rcases List.mem_cons.mp h with rfl | h
      · refine .inr (.inr ⟨names, hk, ?_, rfl⟩)
        rintro rfl
        simp at hkept
      · exact .inr (.inl ⟨_, none, List.mem_singleton.mp h⟩)
  · split at h
    · exact .inl (List.mem_singleton.mp h)
    · simp at h
  · exact .inl (List.mem_singleton.mp h)

end Item

/-- A module after its default export is removed, or after only some names stay exported. -/
def IsRemoval (m m' : EsModule) : Prop :=
  m' = m.removeDefault ∨ ∃ keep, m' = m.retainExports keep

/-- Every item that remains is one of the module, or a list written anew, or a declaration that is no
longer exported. -/
theorem IsRemoval.cases (h : IsRemoval m m') (hj : j ∈ m') :
    j ∈ m ∨ (∃ i es source, j = Item.rewritten i es source) ∨
      ∃ i ∈ m, ∃ names, i.kind = .declaration names ∧ names ≠ [] ∧ j = i.demoted names := by
  rcases h with rfl | ⟨keep, rfl⟩
  · obtain ⟨i, hi, hij⟩ := List.mem_filterMap.mp hj
    have him := (List.mem_filter.mp hi).1
    rcases Item.rewritten_of_retainSpecifiers hij with rfl | ⟨es, source, rfl⟩
    · exact .inl him
    · exact .inr (.inl ⟨i, es, source, rfl⟩)
  · obtain ⟨k, hk, hkj⟩ := List.mem_filterMap.mp hj
    obtain ⟨i, hi, hik⟩ := List.mem_flatMap.mp hk
    rcases Item.rewritten_of_retainSpecifiers hkj with rfl | ⟨es, source, rfl⟩
    · rcases Item.demoted_of_mem_retainNames hik with rfl | ⟨es, source, rfl⟩ | ⟨names, hn⟩
      · exact .inl hi
      · exact .inr (.inl ⟨i, es, source, rfl⟩)
      · exact .inr (.inr ⟨i, hi, names, hn⟩)
    · exact .inr (.inl ⟨k, es, source, rfl⟩)

/-- What remains of a module is made of lines and open statements, if the lists that are written anew
end with their semicolons. -/
theorem isRead_of_removal (h : ofText? s = .ok m) (hm : IsRemoval m m')
    (hl : ∀ j ∈ m', ∀ es source, j.kind = .exportList es source → j ∈ m ∨ j.isTerminated = true) :
    ∀ j ∈ m', j.IsRead := by
  intro j hj
  rcases hm.cases hj with hj | ⟨i, es, source, rfl⟩ | ⟨i, hi, names, hk, hn, rfl⟩
  · exact isRead_of_ofText? h j hj
  · rcases hl _ hj es source rfl with hj | ht
    · exact isRead_of_ofText? h _ hj
    · have text : (i.rewritten es source).text = listBody es ++ listTail source :=
        listText_toList es source
      have head : (listBody es ++ listTail source).head? = some 'e' := by
        unfold listBody
        rfl
      have closes : Scan.start.closes (i.rewritten es source).text = true := by
        rw [Item.isTerminated, Bool.or_eq_true, beq_iff_eq] at ht
        exact ht.resolve_left fun hk => by cases hk
      rw [text] at closes
      refine .inl ?_
      rw [text]
      exact isLine_of_closes head (by decide) (by decide) (by decide) closes
  · have kind := kind_of_ofText? h hi (by simp [hk])
    rw [hk] at kind
    rcases isRead_of_ofText? h i hi with line | ⟨-, v, ho⟩
    · have closes : Scan.start.closes i.text = true := by
        have ht := isTerminated_of_isLine line
        simpa [Item.isTerminated, hk] using ht
      exact .inl (isLine_withoutExport closes kind hn)
    · exact .inr ⟨by simp [Item.demoted], v, ho.withoutExport kind hn⟩

/-- When exports are removed, the statements that are kept are read from the text one by one, if and only
if each that no semicolon closes is complete and stands in front of one that begins with a keyword, or
stands last. Lists that are written anew must end with their semicolons. -/
theorem separate_removal_iff (h : ofText? s = .ok m) (hm : IsRemoval m m')
    (hl : ∀ j ∈ m', ∀ es source, j.kind = .exportList es source → j ∈ m ∨ j.isTerminated = true) :
    m'.Separate ↔ m'.isGuarded = true :=
  separate_iff_isGuarded (isRead_of_removal h hm hl)

/-- Without semicolons, but with keywords in the right places. -/
theorem separate_removal_guarded : ∃ s m, ofText? s = .ok m ∧
    m.map (·.text) = ["foo()".toList, "export \x7b a, b as default \x7d".toList,
      "let c = a\n// c".toList, "export default c".toList] ∧
    m.removeDefault.map (·.text) =
      ["foo()".toList, "export \x7b a \x7d;".toList, "let c = a\n// c".toList] ∧
    m.removeDefault.isGuarded = true ∧ m.removeDefault.Separate := by
  let s := "foo()\nexport \x7b a, b as default \x7d\nlet c = a\n// c\nexport default c\n"
  let m : EsModule := [⟨"foo()".toList, 0, 5, .statement⟩,
    ⟨"export \x7b a, b as default \x7d".toList, 6, 32,
      .exportList [⟨"a", "a"⟩, ⟨"b", "default"⟩] none⟩,
    ⟨"let c = a\n// c".toList, 33, 47, .statement⟩,
    ⟨"export default c".toList, 48, 64, .exportDefault none⟩]
  have hm : ofText? s.toList = .ok m := by decide +kernel
  have lists : ∀ j ∈ m.removeDefault, j ∈ m ∨ j.isTerminated = true := by decide +kernel
  have guarded : m.removeDefault.isGuarded = true := by decide +kernel
  refine ⟨s.toList, m, hm, rfl, by decide +kernel, guarded, ?_⟩
  exact (separate_removal_iff hm (.inl rfl) fun j hj _ _ _ => lists j hj).mpr guarded

/-- A semicolon that keeps the next line apart is lost with the statement that it closes. -/
theorem not_separate_removal : ∃ m : EsModule,
    ofText? "foo()\nexport default x\n;[1].map(f)\n".toList = .ok m ∧
    m.map (·.text) = ["foo()".toList, "export default x\n;".toList, "[1].map(f)".toList] ∧
    m.removeDefault.map (·.text) = ["foo()".toList, "[1].map(f)".toList] ∧
    ofText? (toText m.removeDefault) = .ok [⟨"foo()\n[1].map(f)".toList, 0, 16, .statement⟩] ∧
    ¬m.removeDefault.Separate := by
  let m : EsModule := [⟨"foo()".toList, 0, 5, .statement⟩,
    ⟨"export default x\n;".toList, 6, 24, .exportDefault none⟩,
    ⟨"[1].map(f)".toList, 24, 34, .statement⟩]
  have joined : ofText? (toText m.removeDefault) =
      .ok [⟨"foo()\n[1].map(f)".toList, 0, 16, .statement⟩] := by decide +kernel
  refine ⟨m, by decide +kernel, rfl, by decide +kernel, joined, ?_⟩
  rintro ⟨r, hr, places⟩
  rw [joined] at hr
  cases hr
  revert places
  decide +kernel

end

end StyleExports.EsModule
