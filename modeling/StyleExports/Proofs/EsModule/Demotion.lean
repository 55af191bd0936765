import StyleExports.Proofs.EsModule.Reread
import StyleExports.Proofs.EsModule.Strip

namespace StyleExports.EsModule

open Text

theorem eq_append_of_keyword {k s r : List Char} (h : afterKeyword? k s = some r) : s = k ++ r :=
  (afterKeyword?_eq_some.mp h).1

theorem afterKeyword?_of_head {k s : List Char} {c : Char} (hk : k.head? = some c)
    (hs : s.head? ≠ some c) : afterKeyword? k s = none := by
  cases h : afterKeyword? k s with
  | none => rfl
  | some r =>
    refine absurd ?_ hs
    cases k with
    | nil => simp at hk
    | cons d k =>
      rw [eq_append_of_keyword h]
      exact hk

def declarationHeads : List Char := ['a', 'f', 'c', 'l', 'v']

theorem ne_of_mem_declarationHeads : ∀ c ∈ declarationHeads,
    isSpace c = false ∧ c ≠ ';' ∧ c ≠ '/' ∧ c ≠ 'i' ∧ c ≠ 'e' :=
  forall_mem_of_all (by decide)

theorem head_of_declaredNames {s : List Char} (h : declaredNames s ≠ []) :
    ∃ c ∈ declarationHeads, s.head? = some c := by
  by_cases ha : (afterKeyword? "async".toList s).isSome
  · obtain ⟨r, hr⟩ := Option.isSome_iff_exists.mp ha
    exact ⟨'a', by decide, by rw [eq_append_of_keyword hr]; rfl⟩
  have none : afterKeyword? "async".toList s = none := by simpa using ha
  unfold declaredNames at h
  simp only [none] at h
  split at h
  · rename_i r hr
    exact ⟨'f', by decide, by rw [eq_append_of_keyword hr]; rfl⟩
  split at h
  · rename_i r hr
    exact ⟨'c', by decide, by rw [eq_append_of_keyword hr]; rfl⟩
  split at h
  · rename_i r hr
    simp only [variableBody?, Option.or_eq_some_iff] at hr
    rcases hr with hr | ⟨-, hr | ⟨-, hr⟩⟩
    · exact ⟨'c', by decide, by rw [eq_append_of_keyword hr]; rfl⟩
    · exact ⟨'l', by decide, by rw [eq_append_of_keyword hr]; rfl⟩
    · exact ⟨'v', by decide, by rw [eq_append_of_keyword hr]; rfl⟩
  · exact absurd rfl h

namespace Kind

/-- Only after the keyword `export` is there any form of export. -/
theorem afterExport_of_ofStatement {n : Nat} {s : List Char}
    (h : ofStatement n s ∉ [.importing, .statement]) :
    ∃ rest, afterKeyword? "export".toList s = some rest ∧
      ofStatement n s = ofExport n (trimStart rest) := by
  unfold ofStatement at h ⊢
  cases hi : afterKeyword? "import".toList s with
  | some rest =>
    simp only [hi] at h
    split at h <;> simp at h
  | none =>
    simp only [hi] at h ⊢
    cases he : afterKeyword? "export".toList s with
    | some rest => exact ⟨rest, rfl, rfl⟩
    | none =>
      rw [he] at h
      simp at h

theorem ofExport_eq_declaration {n : Nat} {s : List Char} {names : List String}
    (h : ofExport n s = .declaration names) : declaredNames s = names := by
  unfold ofExport ofList at h
  repeat' split at h
  all_goals simp_all

theorem ofStatement_eq_declaration {n : Nat} {s : List Char} {names : List String}
    (h : ofStatement n s = .declaration names) :
    ∃ rest, afterKeyword? "export".toList s = some rest ∧ declaredNames (trimStart rest) = names := by
  obtain ⟨rest, hr, he⟩ := afterExport_of_ofStatement (n := n) (s := s) (by simp [h])
  exact ⟨rest, hr, ofExport_eq_declaration (he ▸ h)⟩

theorem ofStatement_of_declaredNames (n : Nat) {s : List Char} (h : declaredNames s ≠ []) :
    ofStatement n s = .statement := by
  obtain ⟨c, hc, hs⟩ := head_of_declaredNames h
  obtain ⟨-, -, -, hi, he⟩ := ne_of_mem_declarationHeads c hc
  have hi : afterKeyword? "import".toList s = none :=
    afterKeyword?_of_head (c := 'i') rfl (by simp [hs, hi])
  have he : afterKeyword? "export".toList s = none :=
    afterKeyword?_of_head (c := 'e') rfl (by simp [hs, he])
  unfold ofStatement
  rw [hi, he]

theorem ofStatement_export (n : Nat) {s : List Char} (h : declaredNames s ≠ []) :
    ofStatement n ("export ".toList ++ s) = .declaration (declaredNames s) := by
  obtain ⟨c, hc, hs⟩ := head_of_declaredNames h
  obtain ⟨t, rfl⟩ : ∃ t, s = c :: t := by
    cases s with
    | nil => simp at hs
    | cons d t => exact ⟨t, by rw [Option.some.inj hs]⟩
  have plain : isBlank c = false ∧ c ≠ 'd' ∧ c ≠ '*' ∧ c ≠ '{' := by
    clear hs h
    revert c
    exact forall_mem_of_all (by decide)
  obtain ⟨hb, hdefault, hstar, hbrace⟩ := plain
  have hi : afterKeyword? "import".toList ("export ".toList ++ c :: t) = none :=
    afterKeyword?_of_head (c := 'i') rfl (by simp)
  have he : afterKeyword? "export".toList ("export ".toList ++ c :: t) = some (' ' :: c :: t) :=
    afterKeyword?_append (forall_head?_cons (by decide))
  have ht : trimStart (' ' :: c :: t) = c :: t :=
    trimStart_pad (b := [' ']) (forall_mem_of_all (by decide)) (forall_head?_cons hb)
  have hd : afterKeyword? "default".toList (c :: t) = none :=
    afterKeyword?_of_head (c := 'd') rfl (by simpa using hdefault)
  simp only [ofStatement, hi, he, ht, ofExport, hd]
  split
  · simp_all
  · simp_all
  · rfl

end Kind

namespace Scan

/-- What follows a keyword and the blanks after it is read as at the start of a statement. -/
theorem stepAlike_afterKeyword {k r s t : List Char} {c : Char} (hk : ∀ d ∈ k, isIdentChar d = true)
    (hr : afterKeyword? k s = some r) (ht : trimStart r = c :: t) (hb : isSpace c = false)
    (hn : c ≠ '/') : ∃ b, s = b ++ c :: t ∧
      ∀ {q : List Char} {u : Scan}, Reads start b q u → ∀ x, StepAlike (u.step c x) (start.step c x) := by
  obtain ⟨he, hh⟩ := afterKeyword?_eq_some.mp hr
  obtain ⟨b, hblank, hrb⟩ := exists_dropWhile isBlank r
  change r = b ++ trimStart r at hrb
  rw [ht] at hrb
  refine ⟨k ++ b, by rw [he, hrb, List.append_assoc], fun {q u} hu => ?_⟩
  have ready : Ready [] u := by
    apply hu.ready ⟨rfl, rfl, rfl⟩
    intro d hd
    exact (List.mem_append.mp hd).imp (hk d) (hblank d)
  -- The blanks keep the word apart from the keyword, or no word follows the keyword at all.
  apply stepAlike_of_ready ready ⟨rfl, rfl, rfl⟩ hb ?_ (by simp [start]) fun h => absurd h hn
  intro hi d hd
  rw [hu.before, List.reverse_append, List.append_assoc] at hd
  cases hrev : b.reverse with
  | nil =>
    rw [List.reverse_eq_nil_iff.mp hrev, List.nil_append] at hrb
    have hf := hh c (by rw [hrb]; rfl)
    simp [hi] at hf
  | cons e b' =>
    rw [hrev] at hd
    obtain rfl : e = d := Option.some.inj hd
    have hm : e ∈ b := List.mem_reverse.mp (by rw [hrev]; simp)
    exact isIdentChar_of_isBlank (hblank e hm)

theorem closes_afterKeyword {k r s t : List Char} {c : Char} (hk : ∀ d ∈ k, isIdentChar d = true)
    (hr : afterKeyword? k s = some r) (ht : trimStart r = c :: t) (hb : isSpace c = false)
    (hn : c ≠ '/') (hs : start.closes s = true) : start.closes (c :: t) = true := by
  obtain ⟨b, rfl, alike⟩ := stepAlike_afterKeyword hk hr ht hb hn
  obtain ⟨u, hu, hcl⟩ := exists_reads hs (by simp)
  exact (closes_of_stepAlike (fun h => closes_congr h t) (alike hu t)).symm.trans hcl

end Scan

theorem Item.withoutExport_of_keyword {s r : List Char}
    (h : afterKeyword? "export".toList s = some r) : withoutExport s = trimStart r := by
  unfold withoutExport
  rw [h]

/-- A declaration without its keyword `export` begins with the keyword of a declaration. -/
theorem exists_withoutExport {n : Nat} {s : List Char} {names : List String}
    (hk : Kind.ofStatement n s = .declaration names) (hn : names ≠ []) :
    ∃ r c t, afterKeyword? "export".toList s = some r ∧ trimStart r = c :: t ∧
      Item.withoutExport s = c :: t ∧ declaredNames (c :: t) ≠ [] ∧ c ∈ declarationHeads := by
  obtain ⟨r, hr, hd⟩ := Kind.ofStatement_eq_declaration hk
  obtain ⟨c, hc, hh⟩ := head_of_declaredNames (s := trimStart r) (by rw [hd]; exact hn)
  obtain ⟨t, ht⟩ := List.head?_eq_some_iff.mp hh
  exact ⟨r, c, t, hr, ht, (Item.withoutExport_of_keyword hr).trans ht, by rwa [← ht, hd], hc⟩

theorem isLine_withoutExport {n : Nat} {s : List Char} {names : List String}
    (hs : Scan.start.closes s = true) (hk : Kind.ofStatement n s = .declaration names)
    (hn : names ≠ []) : IsLine (Item.withoutExport s) false := by
  obtain ⟨r, c, t, hr, ht, hw, -, hc⟩ := exists_withoutExport hk hn
  obtain ⟨hb, hsemi, hslash, -⟩ := ne_of_mem_declarationHeads c hc
  have letters : ∀ d ∈ "export".toList, isIdentChar d = true := forall_mem_of_all (by decide)
  rw [hw]
  exact isLine_of_closes rfl hb hsemi hslash
    (Scan.closes_afterKeyword letters hr ht hb hslash hs)

theorem Kind.eq_declaration_of_seen {k : Kind} {names : List String}
    (h : k.seen = .declaration names) : k = .declaration names := by
  cases k <;> simp_all [seen]

theorem Kind.eq_exportAll_of_seen {k : Kind} {name : Option String}
    (h : k.seen = .exportAll name) : k = .exportAll name := by
  cases k <;> simp_all [seen]

theorem Kind.eq_exportList_of_seen {k : Kind} {specifiers : List Specifier}
    {source : Option String} (h : k.seen = .exportList specifiers source) :
    k = .exportList specifiers source := by
  cases k <;> simp_all [seen]

namespace Item

theorem kind_of_stable {i : Item} {names : List String} (hi : i.Stable)
    (hk : i.kind = .declaration names) : Kind.ofStatement 0 i.text = .declaration names :=
  Kind.eq_declaration_of_seen (by rw [hi.kind (by simp [hk]), hk]; rfl)

/-- A declaration that is no longer exported is read back as a plain statement. -/
theorem stable_demoted {i : Item} {names : List String} (hi : i.Stable)
    (ht : i.isTerminated = true) (hk : i.kind = .declaration names) (hn : names ≠ []) :
    (i.demoted names).Stable := by
  have hs : Scan.start.closes i.text = true := by simpa [isTerminated, hk] using ht
  have hd := kind_of_stable hi hk
  obtain ⟨r, c, t, -, -, hw, declares, -⟩ := exists_withoutExport hd hn
  refine ⟨isLine_withoutExport hs hd hn, fun _ => ?_⟩
  change (Kind.ofStatement 0 (withoutExport i.text)).seen = .statement
  rw [hw, Kind.ofStatement_of_declaredNames 0 declares]
  rfl

end Item

end StyleExports.EsModule
