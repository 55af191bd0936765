import StyleExports.Proofs.EsModule.Strip

namespace StyleExports.EsModule

/-- A module in which every item has given way, in its place, to such items as `R` allows. -/
inductive EachIn (R : Item → List Item → Prop) : EsModule → EsModule → Prop where
  | nil : EachIn R [] []
  | cons {i : Item} {js : List Item} {m m' : EsModule} (h : R i js) (hm : EachIn R m m') :
      EachIn R (i :: m) (js ++ m')

theorem eachIn_flatMap {R : Item → List Item → Prop} {f : Item → List Item} (h : ∀ i, R i (f i))
    (m : EsModule) : EachIn R m (m.flatMap f) := by
  induction m with
  | nil => exact .nil
  | cons i m ih => exact .cons (h i) ih

/-- A change of items that leaves the results as they are changes nothing when it is made again. -/
theorem flatMap_again {f : Item → List Item} (h : ∀ i, ∀ j ∈ f i, f j = [j]) (m : EsModule) :
    (m.flatMap f).flatMap f = m.flatMap f := by
  have once (js : List Item) (hj : ∀ j ∈ js, f j = [j]) : js.flatMap f = js := by
    induction js with
    | nil => rfl
    | cons j js ih =>
      rw [List.flatMap_cons, hj j List.mem_cons_self, ih fun k hk => hj k (List.mem_cons_of_mem _ hk)]
      rfl
  apply once
  intro j hj
  obtain ⟨i, -, hji⟩ := List.mem_flatMap.mp hj
  exact h i j hji

namespace Item

def isKept (keep : String → Bool) (e : Specifier) : Bool := e.exported == "default" || keep e.exported

/-- What remains of an item when some of the exported names are kept, and why. -/
inductive Retains (keep : String → Bool) (i : Item) : List Item → Prop where
  /-- No export by name: imports, comments, plain statements, declarations that are not exported any
  more, and statements that export a default. -/
  | untouched (hd : ∀ names, i.kind ≠ .declaration names)
      (hl : ∀ specifiers source, i.kind ≠ .exportList specifiers source)
      (ha : ∀ name, i.kind ≠ .exportAll name) : Retains keep i [i]
  | star {name : Option String} (h : i.kind = .exportAll name) (hk : keep (name.getD "*") = true) :
      Retains keep i [i]
  | unstarred {name : Option String} (h : i.kind = .exportAll name)
      (hk : keep (name.getD "*") = false) : Retains keep i []
  | declared {names : List String} (h : i.kind = .declaration names)
      (hk : ∀ n ∈ names, keep n = true) : Retains keep i [i]
  | undeclared {names : List String} (h : i.kind = .declaration names) (hn : names ≠ [])
      (hk : ∀ n ∈ names, keep n = false) : Retains keep i []
  /-- Some of the names are kept: a list right behind the declaration exports them. -/
  | demoted {names : List String} (h : i.kind = .declaration names)
      (hk : ∃ n ∈ names, keep n = true) (hn : ∃ n ∈ names, keep n = false) :
      Retains keep i [i.demoted names, i.listOf (names.filter keep)]
  | listed {specifiers : List Specifier} {source : Option String}
      (h : i.kind = .exportList specifiers source) (hk : ∀ e ∈ specifiers, isKept keep e = true) :
      Retains keep i [i]
  | unlisted {specifiers : List Specifier} {source : Option String}
      (h : i.kind = .exportList specifiers source) (hn : specifiers ≠ [])
      (hk : ∀ e ∈ specifiers, isKept keep e = false) : Retains keep i []
  | narrowed {specifiers : List Specifier} {source : Option String}
      (h : i.kind = .exportList specifiers source) (hk : ∃ e ∈ specifiers, isKept keep e = true)
      (hn : ∃ e ∈ specifiers, isKept keep e = false) :
      Retains keep i [i.rewritten (specifiers.filter (isKept keep)) source]

/-- What remains of an item when the default export is removed, and why. -/
inductive Undefaulted (i : Item) : List Item → Prop where
  | untouched (h : i.hasDefault = false) : Undefaulted i [i]
  | statement {brace : Option Nat} (h : i.kind = .exportDefault brace) : Undefaulted i []
  | unlisted {specifiers : List Specifier} {source : Option String}
      (h : i.kind = .exportList specifiers source) (hd : i.hasDefault = true)
      (hk : ∀ e ∈ specifiers, e.exported = "default") : Undefaulted i []
  | narrowed {specifiers : List Specifier} {source : Option String}
      (h : i.kind = .exportList specifiers source) (hd : i.hasDefault = true)
      (hk : ∃ e ∈ specifiers, e.exported ≠ "default") :
      Undefaulted i [i.rewritten (specifiers.filter fun e => e.exported ≠ "default") source]

def retained (keep : String → Bool) (i : Item) : List Item :=
  (i.retainNames keep).filterMap (retainSpecifiers fun n => n == "default" || keep n)

def undefaulted (i : Item) : List Item :=
  if i.isDefault then [] else (i.retainSpecifiers fun n => decide (n ≠ "default")).toList

section

variable {keep : String → Bool} {i j : Item} {js : List Item} {names : List String}
  {specifiers : List Specifier} {source : Option String}

theorem forall_or_exists {α : Type} (p : α → Bool) (l : List α) :
    (∀ a ∈ l, p a = true) ∨ (l ≠ [] ∧ ∀ a ∈ l, p a = false) ∨
      (∃ a ∈ l, p a = true) ∧ ∃ a ∈ l, p a = false := by
  by_cases all : ∀ a ∈ l, p a = true
  · exact .inl all
  have other : ∃ a ∈ l, p a = false := by simpa using all
  by_cases some : ∃ a ∈ l, p a = true
  · exact .inr (.inr ⟨some, other⟩)
  · obtain ⟨a, ha, -⟩ := other
    exact .inr (.inl ⟨List.ne_nil_of_mem ha, by simpa using some⟩)

theorem length_filter_ne {α : Type} {p : α → Bool} {l : List α} (h : ∃ a ∈ l, p a = false) :
    (l.filter p).length ≠ l.length := by
  intro hl
  obtain ⟨a, ha, hp⟩ := h
  have all := List.filter_eq_self.mp (List.filter_sublist.eq_of_length hl)
  simp [all a ha] at hp

/-- A list loses what is not kept: nothing, all, or some. -/
theorem retainSpecifiers_cases {f : String → Bool} (h : i.kind = .exportList specifiers source) :
    ((∀ e ∈ specifiers, f e.exported = true) ∧ i.retainSpecifiers f = some i) ∨
    (specifiers ≠ [] ∧ (∀ e ∈ specifiers, f e.exported = false) ∧ i.retainSpecifiers f = none) ∨
    ((∃ e ∈ specifiers, f e.exported = true) ∧ (∃ e ∈ specifiers, f e.exported = false) ∧
      i.retainSpecifiers f =
        some (i.rewritten (specifiers.filter fun e => f e.exported) source)) := by
  rw [retainSpecifiers_list h, kept]
  rcases forall_or_exists (fun e : Specifier => f e.exported) specifiers with all | ⟨hn, none⟩ | ⟨hs, ho⟩
  · refine .inl ⟨all, ?_⟩
    rw [List.filter_eq_self.mpr all, if_pos rfl]
  · refine .inr (.inl ⟨hn, none, ?_⟩)
    have empty : (specifiers.filter fun e => f e.exported) = [] := by simpa using none
    obtain ⟨e, he⟩ := List.exists_mem_of_ne_nil specifiers hn
    rw [if_neg (length_filter_ne ⟨e, he, none e he⟩), empty]
    rfl
  · refine .inr (.inr ⟨hs, ho, ?_⟩)
    obtain ⟨e, he, hk⟩ := hs
    have some : ¬(specifiers.filter fun e => f e.exported).isEmpty = true := by
      rw [List.isEmpty_iff]
      exact List.ne_nil_of_mem (List.mem_filter.mpr ⟨he, hk⟩)
    rw [if_neg (length_filter_ne ho), if_neg some]

theorem retained_of_list (h : i.kind = .exportList specifiers source) :
    i.retained keep = (i.retainSpecifiers fun n => n == "default" || keep n).toList := by
  rw [retained, retainNames_of_list keep h, List.filterMap_cons, List.filterMap_nil]
  cases i.retainSpecifiers fun n => n == "default" || keep n <;> rfl

theorem retained_of_not_list (h : ∀ specifiers source, i.kind ≠ .exportList specifiers source) :
    i.retained keep = i.retainNames keep := filterMap_retainNames keep h

theorem retains_retained (keep : String → Bool) (i : Item) : Retains keep i (i.retained keep) := by
  by_cases hl : ∃ specifiers source, i.kind = .exportList specifiers source
  · obtain ⟨specifiers, source, hk⟩ := hl
    rw [retained_of_list hk]
    rcases retainSpecifiers_cases (f := fun n => n == "default" || keep n) hk with
      ⟨all, hr⟩ | ⟨hn, none, hr⟩ | ⟨hs, ho, hr⟩
    · rw [hr]
      exact .listed hk all
    · rw [hr]
      exact .unlisted hk hn none
    · rw [hr]
      exact .narrowed hk hs ho
  have hl : ∀ specifiers source, i.kind ≠ .exportList specifiers source :=
    fun a b h => hl ⟨a, b, h⟩
  rw [retained_of_not_list hl]
  unfold retainNames
  split
  · rename_i names hk
    simp only
    rcases forall_or_exists keep names with all | ⟨hn, none⟩ | ⟨hs, ho⟩
    · rw [if_pos (filter_length_eq.mpr all)]
      exact .declared hk all
    · have empty : names.filter keep = [] := by simpa using none
      obtain ⟨n, hm⟩ := List.exists_mem_of_ne_nil names hn
      rw [if_neg (length_filter_ne ⟨n, hm, none n hm⟩), empty]
      exact .undeclared hk hn none
    · obtain ⟨n, hn, hkeep⟩ := hs
      have some : ¬(names.filter keep).isEmpty = true := by
        rw [List.isEmpty_iff]
        exact List.ne_nil_of_mem (List.mem_filter.mpr ⟨hn, hkeep⟩)
      rw [if_neg (length_filter_ne ho), if_neg some]
      exact .demoted hk ⟨n, hn, hkeep⟩ ho
  · rename_i name hk
    by_cases hs : keep (name.getD "*") = true
    · rw [if_pos hs]
      exact .star hk hs
    · rw [if_neg hs]
      exact .unstarred hk (by simpa using hs)
  · rename_i hd ha
    exact .untouched hd hl ha

theorem undefaulted_undefaulted (i : Item) : Undefaulted i i.undefaulted := by
  unfold undefaulted
  by_cases hd : i.isDefault = true
  · rw [if_pos hd]
    unfold isDefault at hd
    split at hd
    · exact .statement ‹_›
    · simp at hd
  rw [if_neg hd]
  by_cases hl : ∃ specifiers source, i.kind = .exportList specifiers source
  · obtain ⟨specifiers, source, hk⟩ := hl
    have default_iff : i.hasDefault = true ↔ ∃ e ∈ specifiers, e.exported = "default" := by
      simp [hasDefault, hk]
    rcases retainSpecifiers_cases (f := fun n => decide (n ≠ "default")) hk with
      ⟨all, hr⟩ | ⟨hn, none, hr⟩ | ⟨hs, ho, hr⟩
    · rw [hr]
      apply Undefaulted.untouched
      rw [Bool.eq_false_iff, ne_eq, default_iff]
      rintro ⟨e, he, h⟩
      exact of_decide_eq_true (all e he) h
    · rw [hr]
      have every : ∀ e ∈ specifiers, e.exported = "default" := by simpa using none
      obtain ⟨e, he⟩ := List.exists_mem_of_ne_nil specifiers hn
      exact .unlisted hk (default_iff.mpr ⟨e, he, every e he⟩) every
    · rw [hr]
      exact .narrowed hk (default_iff.mpr (by simpa using ho)) (by simpa using hs)
  · have hn : ∀ specifiers source, i.kind ≠ .exportList specifiers source :=
      fun a b h => hl ⟨a, b, h⟩
    rw [retainSpecifiers_of_not_list hn]
    apply Undefaulted.untouched
    unfold hasDefault
    split
    · rename_i hk
      simp [isDefault, hk] at hd
    · exact absurd ‹_› (hn _ _)
    · rfl

theorem exportedNames_listOf (h : "default" ∉ names) : (i.listOf names).exportedNames = names := by
  simp only [exportedNames, listOf, List.map_map, Function.comp_def, List.map_id']
  apply List.filter_eq_self.mpr
  intro n hn
  apply decide_eq_true
  rintro rfl
  exact h hn

theorem hasDefault_listOf (h : "default" ∉ names) : (i.listOf names).hasDefault = false := by
  simp only [hasDefault, listOf, List.any_map, Bool.eq_false_iff, ne_eq, List.any_eq_true,
    Function.comp_apply, beq_iff_eq]
  rintro ⟨n, hn, rfl⟩
  exact h hn

theorem exportedNames_kept (specifiers : List Specifier) (source : Option String) :
    (i.rewritten (specifiers.filter (isKept keep)) source).exportedNames =
      ((specifiers.map (·.exported)).filter (· ≠ "default")).filter keep := by
  simp only [exportedNames, rewritten, List.filter_map, List.filter_filter, Function.comp_def]
  refine congrArg (List.map _) (List.filter_congr fun e _ => ?_)
  by_cases he : e.exported = "default" <;> simp [isKept, he]

/-- Of the names that an item exports, those remain exported that are kept. -/
theorem Retains.exportedNames (h : Retains keep i js)
    (hd : ∀ names, i.kind = .declaration names → "default" ∉ names) :
    js.flatMap Item.exportedNames = i.exportedNames.filter keep := by
  cases h with
  | untouched hn hl ha =>
    have none : i.exportedNames = [] := by
      unfold Item.exportedNames
      split
      · exact absurd ‹_› (hn _)
      · exact absurd ‹_› (hl _ _)
      · exact absurd ‹_› (ha _)
      · rfl
    rw [List.flatMap_singleton, none]
    rfl
  | @star name hk hs => cases name <;> simp_all [Item.exportedNames]
  | @unstarred name hk hs => cases name <;> simp_all [Item.exportedNames]
  | declared hk hs =>
    rw [List.flatMap_singleton, eq_comm, List.filter_eq_self]
    simpa only [Item.exportedNames, hk] using hs
  | undeclared hk _ hs =>
    rw [List.flatMap_nil, eq_comm, List.filter_eq_nil_iff]
    simpa [Item.exportedNames, hk] using hs
  | @demoted names hk _ _ =>
    have kept : "default" ∉ names.filter keep := fun h => hd names hk (List.mem_filter.mp h).1
    have first : (i.demoted names).exportedNames = [] := rfl
    rw [List.flatMap_cons, List.flatMap_singleton, first, exportedNames_listOf kept, List.nil_append]
    simp only [Item.exportedNames, hk]
  | @listed specifiers source hk hs =>
    rw [List.flatMap_singleton, eq_comm, List.filter_eq_self]
    intro n hn
    simp only [Item.exportedNames, hk, List.mem_filter, List.mem_map, decide_eq_true_eq] at hn
    obtain ⟨⟨e, he, rfl⟩, hne⟩ := hn
    simpa [isKept, hne] using hs e he
  | @unlisted specifiers source hk _ hs =>
    rw [List.flatMap_nil, eq_comm, List.filter_eq_nil_iff]
    intro n hn
    simp only [Item.exportedNames, hk, List.mem_filter, List.mem_map, decide_eq_true_eq] at hn
    obtain ⟨⟨e, he, rfl⟩, hne⟩ := hn
    simpa [isKept, hne] using hs e he
  | @narrowed specifiers source hk _ _ =>
    rw [List.flatMap_singleton, exportedNames_kept]
    simp only [Item.exportedNames, hk]

theorem Retains.hasDefault (h : Retains keep i js)
    (hd : ∀ names, i.kind = .declaration names → "default" ∉ names) :
    js.any Item.hasDefault = i.hasDefault := by
  have self : [i].any Item.hasDefault = i.hasDefault := by simp
  cases h with
  | untouched => exact self
  | star => exact self
  | unstarred hk => simp [Item.hasDefault, hk]
  | declared => exact self
  | undeclared hk => simp [Item.hasDefault, hk]
  | @demoted names hk =>
    have kept : "default" ∉ names.filter keep := fun h => hd names hk (List.mem_filter.mp h).1
    have first : (i.demoted names).hasDefault = false := rfl
    have none : i.hasDefault = false := by simp [Item.hasDefault, hk]
    rw [none, List.any_cons, first, List.any_cons, hasDefault_listOf kept]
    rfl
  | listed => exact self
  | @unlisted specifiers source hk _ hs =>
    have none : i.hasDefault = false := by
      simp only [Item.hasDefault, hk, Bool.eq_false_iff, ne_eq, List.any_eq_true, beq_iff_eq]
      rintro ⟨e, he, h⟩
      simpa [isKept, h] using hs e he
    rw [none, List.any_nil]
  | @narrowed specifiers source hk _ _ =>
    simp only [List.any_cons, List.any_nil, Bool.or_false, Item.hasDefault, rewritten, hk,
      List.any_filter]
    congr 1
    funext e
    by_cases he : e.exported = "default" <;> simp [isKept, he]

/-- What remains of an item remains when the same names are kept again. -/
theorem Retains.again (h : Retains keep i js) (hi : js = i.retained keep) :
    ∀ j ∈ js, j.retained keep = [j] := by
  have list {j : Item} {es : List Specifier} {source : Option String}
      (hk : j.kind = .exportList es source) (hs : ∀ e ∈ es, isKept keep e = true) :
      j.retained keep = [j] := by
    rw [retained_of_list hk, retainSpecifiers_list hk, Item.kept, if_pos]
    · rfl
    · exact congrArg List.length (List.filter_eq_self.mpr hs)
  cases h with
  | untouched => simp [← hi]
  | star => simp [← hi]
  | unstarred => simp
  | declared => simp [← hi]
  | undeclared => simp
  | @demoted names hk _ _ =>
    intro j hj
    rcases List.mem_cons.mp hj with rfl | hj
    · have unlisted : ∀ specifiers source, (i.demoted names).kind ≠ .exportList specifiers source :=
        fun _ _ => Kind.noConfusion
      rw [retained_of_not_list unlisted]
      rfl
    · obtain rfl := List.mem_singleton.mp hj
      apply list rfl
      intro e he
      obtain ⟨n, hn, rfl⟩ := List.mem_map.mp he
      simp [isKept, (List.mem_filter.mp hn).2]
  | listed => simp [← hi]
  | unlisted => simp
  | narrowed =>
    intro j hj
    obtain rfl := List.mem_singleton.mp hj
    exact list rfl fun e he => (List.mem_filter.mp he).2

theorem Undefaulted.exportedNames (h : Undefaulted i js) :
    js.flatMap Item.exportedNames = i.exportedNames := by
  cases h with
  | untouched => exact List.flatMap_singleton ..
  | statement hk => simp [Item.exportedNames, hk]
  | unlisted hk _ hs =>
    rw [List.flatMap_nil, eq_comm]
    simpa [Item.exportedNames, hk] using hs
  | narrowed hk _ _ =>
    simp [Item.exportedNames, rewritten, hk, List.filter_map, Function.comp_def]

theorem Undefaulted.hasDefault (h : Undefaulted i js) : ∀ j ∈ js, j.hasDefault = false := by
  cases h with
  | untouched h => simpa using h
  | statement => simp
  | unlisted => simp
  | narrowed => simp [Item.hasDefault, rewritten]

theorem undefaulted_of_not (h : i.hasDefault = false) : i.undefaulted = [i] := by
  have made := undefaulted_undefaulted i
  generalize i.undefaulted = js at made
  cases made with
  | untouched => rfl
  | statement hk => simp [Item.hasDefault, hk] at h
  | unlisted _ hd => simp [hd] at h
  | narrowed _ hd => simp [hd] at h

end

end Item

open Item

theorem retainExports_eq (keep : String → Bool) (m : EsModule) :
    m.retainExports keep = m.flatMap (retained keep) := by
  rw [retainExports, retainSpecifiers, List.filterMap_flatMap]
  rfl

theorem removeDefault_eq (m : EsModule) : m.removeDefault = m.flatMap undefaulted := by
  rw [removeDefault, retainSpecifiers]
  induction m with
  | nil => rfl
  | cons i m ih =>
    rw [List.flatMap_cons, ← ih, undefaulted, List.filter_cons]
    cases i.isDefault with
    | true => rfl
    | false =>
      simp only [Bool.not_false, if_true, List.filterMap_cons, Bool.false_eq_true, if_false]
      cases i.retainSpecifiers fun n => decide (n ≠ "default") <;> rfl

/-- Keeping some of the exported names keeps just those, in order, and touches nothing else: every item
gives way to what `Retains` says, the default export stays, and a second time changes nothing. Removing
the default export keeps all names and every item without a default. Of the names declared, none may be
the reserved word `default`. -/
theorem retainExports_exact (keep : String → Bool) (m : EsModule)
    (hd : ∀ i ∈ m, ∀ names, i.kind = .declaration names → "default" ∉ names) :
    ((m.retainExports keep).exportedNames = m.exportedNames.filter keep ∧
      EachIn (Retains keep) m (m.retainExports keep) ∧
      (m.retainExports keep).hasDefault = m.hasDefault ∧
      (m.retainExports keep).retainExports keep = m.retainExports keep) ∧
    m.removeDefault.exportedNames = m.exportedNames ∧
      EachIn Undefaulted m m.removeDefault ∧
      m.removeDefault.hasDefault = false ∧
      m.removeDefault.removeDefault = m.removeDefault := by
  have retains (i : Item) : Retains keep i (i.retained keep) := retains_retained keep i
  have undefaulted (i : Item) : Undefaulted i i.undefaulted := undefaulted_undefaulted i
  have noDefault : ∀ j ∈ m.flatMap Item.undefaulted, j.hasDefault = false := by
    intro j hj
    obtain ⟨i, -, hji⟩ := List.mem_flatMap.mp hj
    exact (undefaulted i).hasDefault j hji
  refine ⟨⟨?_, ?_, ?_, ?_⟩, ?_, ?_, ?_, ?_⟩
  · rw [retainExports_eq, exportedNames, exportedNames, List.flatMap_assoc, List.filter_flatMap]
    exact List.flatMap_congr fun i hi => (retains i).exportedNames (hd i hi)
  · rw [retainExports_eq]
    exact eachIn_flatMap retains m
  · rw [retainExports_eq, hasDefault, hasDefault, List.any_flatMap]
    rw [Bool.eq_iff_iff, List.any_eq_true, List.any_eq_true]
    exact exists_congr fun i => and_congr_right fun hi => by rw [(retains i).hasDefault (hd i hi)]
  · rw [retainExports_eq, retainExports_eq]
    exact flatMap_again (fun i => (retains i).again rfl) m
  · rw [removeDefault_eq, exportedNames, exportedNames, List.flatMap_assoc]
    exact List.flatMap_congr fun i _ => (undefaulted i).exportedNames
  · rw [removeDefault_eq]
    exact eachIn_flatMap undefaulted m
  · rw [removeDefault_eq, hasDefault, List.any_eq_false]
    exact fun j hj => by simp [noDefault j hj]
  · rw [removeDefault_eq, removeDefault_eq]
    refine flatMap_again (fun i j hj => ?_) m
    exact undefaulted_of_not ((undefaulted i).hasDefault j hj)

/-- Of two declared names one is kept, of a list an alias and the default. -/
theorem retainExports_exact_host : ∃ m : EsModule,
    m.map (·.text) = ["import \"a.css\";".toList, "export const __vite__a = 1, b = 2;".toList,
      "export \x7b b as c, b as __vite__c, b as default \x7d;".toList,
      "export * from \"m.js\";".toList, "// c".toList] ∧
    (∀ i ∈ m, ∀ names, i.kind = .declaration names → "default" ∉ names) ∧
    toText (m.retainExports Synthesis.isHostName) =
      ("import \"a.css\";\nconst __vite__a = 1, b = 2;\nexport \x7b __vite__a \x7d;\n" ++
        "export \x7b b as __vite__c, b as default \x7d;\n// c\n").toList ∧
    toText m.removeDefault =
      ("import \"a.css\";\nexport const __vite__a = 1, b = 2;\n" ++
        "export \x7b b as c, b as __vite__c \x7d;\nexport * from \"m.js\";\n// c\n").toList ∧
    (m.retainExports Synthesis.isHostName).exportedNames =
      m.exportedNames.filter Synthesis.isHostName ∧
    EachIn (Retains Synthesis.isHostName) m (m.retainExports Synthesis.isHostName) ∧
    (m.retainExports Synthesis.isHostName).hasDefault = m.hasDefault ∧
    m.removeDefault.exportedNames = m.exportedNames ∧ EachIn Undefaulted m m.removeDefault := by
  let list : List Specifier := [⟨"b", "c"⟩, ⟨"b", "__vite__c"⟩, ⟨"b", "default"⟩]
  let m : EsModule := [⟨"import \"a.css\";".toList, 0, 15, .importing⟩,
    ⟨"export const __vite__a = 1, b = 2;".toList, 16, 50, .declaration ["__vite__a", "b"]⟩,
    ⟨"export \x7b b as c, b as __vite__c, b as default \x7d;".toList, 51, 99, .exportList list none⟩,
    ⟨"export * from \"m.js\";".toList, 100, 121, .exportAll none⟩, ⟨"// c".toList, 122, 126, .comment⟩]
  have declared : ∀ i ∈ m, ∀ names, i.kind = .declaration names → "default" ∉ names := by
    simp [m]
  obtain ⟨⟨names, items, default, -⟩, removedNames, removed, -⟩ :=
    retainExports_exact Synthesis.isHostName m declared
  exact ⟨m, rfl, declared, by decide +kernel, by decide +kernel, names, items, default, removedNames,
    removed⟩

end StyleExports.EsModule
