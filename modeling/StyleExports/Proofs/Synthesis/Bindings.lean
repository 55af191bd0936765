import StyleExports.Proofs.Synthesis.Outcome

namespace StyleExports

open Text EsModule

namespace EsModule

/-- The names bound by the part of an import after the name of the default. -/
def clauseNames : List Char → List String
  | '{' :: s =>
    match cut? (· == '}') s with
    | some (inner, _) => (Specifier.listOfText inner).map (·.exported)
    | none => []
  | '*' :: s => (Kind.starName? s).toList
  | _ => []

def importedNames (s : List Char) : List String :=
  match afterKeyword? "import".toList s with
  | none => []
  | some rest =>
    let clause := trimStart rest
    match identifier? clause with
    | none => clauseNames clause
    | some name =>
      name ::
        match trimStart (clause.dropWhile isIdentChar) with
        | ',' :: s => clauseNames (trimStart s)
        | _ => []

namespace Item

def declared (i : Item) : List String :=
  match i.kind with
  | .declaration names => names
  | .localDeclaration names => names
  | .statement => declaredNames i.text
  | .importing => importedNames i.text
  | _ => []

/-- The specifiers by which an item exports bindings of its own module. -/
def ownSpecifiers (i : Item) : List Specifier :=
  match i.kind with
  | .exportList specifiers none => specifiers
  | _ => []

/-- Whether an item binds names without exporting them. -/
def isPlain (i : Item) : Prop := i.kind = .importing ∨ i.kind = .statement

instance (i : Item) : Decidable i.isPlain :=
  inferInstanceAs (Decidable (i.kind = .importing ∨ i.kind = .statement))

end Item

end EsModule

namespace Synthesis

section

variable {p : Policy} {t : Tree} {m : EsModule}

theorem mem_stripped_of_plain {stays : String → Bool} {i : Item} (hi : i ∈ m) (h : i.isPlain) :
    i ∈ stripped stays m := by
  have hu : i.kind ∈ [.importing, .comment, .statement] := by
    rcases h with h | h <;> simp [h]
  rw [stripped_eq]
  exact List.mem_flatMap.mpr ⟨i, hi, by simp [Item.strip_untouched hu]⟩

/-- What still binds a name: a plain item, a declaration all of whose names stay, or one that lost
its export. -/
theorem declared_cases {stays : String → Bool} {i j : Item} {n : String}
    (h : i.Remains stays j) (hl : ∀ names, i.kind ≠ .localDeclaration names)
    (hn : n ∈ j.declared) : (i.isPlain ∧ j = i) ∨ (∃ names, i.kind = .declaration names ∧
      n ∈ names ∧ ((∀ k ∈ names, stays k = true) ∨
        (∃ k ∈ names, stays k = true) ∧ ∃ k ∈ names, stays k = false)) := by
  cases h with
  | untouched h =>
    simp only [List.mem_cons, List.not_mem_nil, or_false] at h
    rcases h with h | h | h
    · exact .inl ⟨.inl h, rfl⟩
    · simp [Item.declared, h] at hn
    · exact .inl ⟨.inr h, rfl⟩
  | unexported h => exact absurd h (hl _)
  | star h => simp [Item.declared, h] at hn
  | @exported names h hs =>
    refine .inr ⟨names, h, ?_, .inl hs⟩
    simpa [Item.declared, h] using hn
  | @demoted names h hs hno => exact .inr ⟨names, h, hn, .inr ⟨hs, hno⟩⟩
  | reexported => simp [Item.declared, Item.listOf] at hn
  | listed h => simp [Item.declared, h] at hn
  | narrowed => simp [Item.declared, Item.rewritten] at hn

theorem clash?_eq_none_iff {s : List Char} (hp : p ≠ .merge) (h : ofText? s = .ok m) :
    clash? p t m = none ↔ ∀ i ∈ m, ∀ names, i.kind = .declaration names →
      (∃ k ∈ names, stays p t k = true) → ∀ k ∈ names, k ∉ Fragment.names t := by
  rw [clash?_eq_none]
  constructor
  · intro hn i hi names hk hs k hkn ht
    refine hn k ?_ ht
    exact (mem_localNames_stripped fun j hj => ne_localDeclaration_of_ofText? h hj).mpr
      ⟨i, hi, names, hk, hs, ⟨k, hkn, not_stays_of_mem hp ht⟩, hkn⟩
  · intro hn k hk
    obtain ⟨i, hi, names, hkind, hs, -, hkn⟩ :=
      (mem_localNames_stripped fun j hj => ne_localDeclaration_of_ofText? h hj).mp hk
    exact hn i hi names hkind hs k hkn

theorem declared_stripped {s : List Char} (hp : p ≠ .merge) (h : ofText? s = .ok m)
    (hc : clash? p t m = none) :
    (∀ i ∈ stripped (stays p t) m, ∀ n ∈ i.declared, n ∉ Fragment.names t) ↔
      ∀ i ∈ m, i.isPlain → ∀ n ∈ i.declared, n ∉ Fragment.names t := by
  constructor
  · exact fun hn i hi hplain => hn i (mem_stripped_of_plain hi hplain)
  · intro hn j hj n hnj
    rw [stripped_eq] at hj
    obtain ⟨i, hi, hj⟩ := List.mem_flatMap.mp hj
    rcases declared_cases (Item.remains_of_mem_strip hj)
      (ne_localDeclaration_of_ofText? h hi) hnj with ⟨hplain, rfl⟩ | ⟨names, hk, hmem, hs⟩
    · exact hn j hi hplain n hnj
    · refine (clash?_eq_none_iff hp h).mp hc i hi names hk ?_ n hmem
      exact hs.elim (fun hall => ⟨n, hmem, hall n hmem⟩) And.left

end

/-- A module is refused if a declaration of which some name stays exported declares a name of the
tree; what is printed declares no such name if no plain statement and no import does. -/
theorem declared_synthesize {t : Tree} {p : Policy} {d name : String} {inline : Bool}
    {m : EsModule} (hp : p ≠ .merge) (hd : ofText? d.toList = .ok m) :
    ((∃ n ∈ Fragment.names t, synthesize t d p inline name = .error (.stillDeclared n) ∧
        (Error.stillDeclared n).kind = .build) ↔
      ∃ i ∈ m, ∃ names, i.kind = .declaration names ∧ (∃ k ∈ names, stays p t k = true) ∧
        ∃ k ∈ names, k ∈ Fragment.names t) ∧
    ∀ code, synthesize t d p inline name = .ok code →
      code.toList = toText (output p t m) ∧
      ((∀ i ∈ stripped (stays p t) m, ∀ n ∈ i.declared, n ∉ Fragment.names t) ↔
        ∀ i ∈ m, i.isPlain → ∀ n ∈ i.declared, n ∉ Fragment.names t) := by
  refine ⟨?_, fun code h => ?_⟩
  · rw [synthesize_eq hp hd]
    have iff := clash?_eq_none_iff (t := t) hp hd
    cases hc : clash? p t m with
    | some n =>
      have hex : ¬∀ i ∈ m, ∀ names, i.kind = .declaration names →
          (∃ k ∈ names, stays p t k = true) → ∀ k ∈ names, k ∉ Fragment.names t := by
        intro hall
        simp [iff.mpr hall] at hc
      have hn := (clash?_eq_some hc).2
      refine ⟨fun _ => ?_, fun _ => ⟨n, hn, rfl, rfl⟩⟩
      push Not at hex
      exact hex
    | none =>
      have hall := iff.mp hc
      constructor
      · rintro ⟨n, -, hn, -⟩
        simp at hn
      · rintro ⟨i, hi, names, hk, hs, k, hkn, ht⟩
        exact absurd ht (hall i hi names hk hs k hkn)
  · obtain ⟨hc, hcode⟩ := synthesize_eq_ok hp hd h
    exact ⟨hcode, declared_stripped hp hd hc⟩

theorem declared_synthesize_override :
    (∃ d n, synthesize (.leaf "x" "1" .empty) d .override false "sharedData" =
      .error (.stillDeclared n) ∧ n ∈ Fragment.names (.leaf "x" "1" .empty)) ∧
    ∃ d code m, synthesize (.leaf "y" "2" .empty) d .override false "sharedData" = .ok code ∧
      ofText? d.toList = .ok m ∧
      ∀ i ∈ stripped (stays .override (.leaf "y" "2" .empty)) m, ∀ n ∈ i.declared,
        n ∉ Fragment.names (.leaf "y" "2" .empty) := by
  let d := "export const __vite__css = \"\", x = 1;\nlet z = 3;"
  let code := "const __vite__css = \"\", x = 1;\nexport \x7b __vite__css \x7d;\nlet z = 3;\n" ++
    "export const y = \"2\";\nexport default \x7b\n\ty\n\x7d;\n"
  let m : EsModule := [⟨"export const __vite__css = \"\", x = 1;".toList, 0, 37,
      .declaration ["__vite__css", "x"]⟩,
    ⟨"let z = 3;".toList, 38, 48, .statement⟩]
  have hd : ofText? d.toList = .ok m := by decide +kernel
  refine ⟨⟨d, ?_⟩, d, code, m, ?_, hd, ?_⟩
  · obtain ⟨refused, -⟩ := @declared_synthesize (.leaf "x" "1" .empty) .override d "sharedData" false
      m (by decide) hd
    obtain ⟨n, hn, herr, -⟩ := refused.mpr ⟨m[0], List.mem_cons_self, ["__vite__css", "x"], rfl,
      by decide +kernel, by decide +kernel⟩
    exact ⟨n, herr, hn⟩
  · decide +kernel
  · obtain ⟨-, printed⟩ := @declared_synthesize (.leaf "y" "2" .empty) .override d "sharedData" false
      m (by decide) hd
    refine (printed code (by decide +kernel)).2.mpr ?_
    decide +kernel

/-- A plain declaration of a name of the tree is kept beside that of the tree. -/
theorem declared_twice_of_plain : ∃ d code m r, ofText? d.toList = .ok m ∧
    synthesize (.leaf "x" "1" .empty) d .plain false "sharedData" = .ok code ∧
    (∃ i ∈ stripped (stays .plain (.leaf "x" "1" .empty)) m, ∃ n ∈ i.declared,
      n ∈ Fragment.names (.leaf "x" "1" .empty)) ∧
    ofText? code.toList = .ok r ∧ r.map Item.declared = [["x"], ["x"], []] := by
  refine ⟨"const x = 1;\nexport \x7b x \x7d;",
    "const x = 1;\nexport const x = \"1\";\nexport default \x7b\n\tx\n\x7d;\n",
    [⟨"const x = 1;".toList, 0, 12, .statement⟩,
      ⟨"export \x7b x \x7d;".toList, 13, 26, .exportList [⟨"x", "x"⟩] none⟩],
    [⟨"const x = 1;".toList, 0, 12, .statement⟩,
      ⟨"export const x = \"1\";".toList, 13, 34, .declaration ["x"]⟩,
      ⟨"export default \x7b\n\tx\n\x7d;".toList, 35, 57, .exportDefault (some 50)⟩], ?_⟩
  decide +kernel

section

variable {p : Policy} {t : Tree} {m : EsModule} {n : String}

theorem declared_fragment :
    (∃ k ∈ reread (Fragment.items t), n ∈ k.declared) ↔ n ∈ Fragment.names t := by
  have same : ∀ k ∈ reread (Fragment.items t), k.declared = k.exportedNames := by
    intro k hk
    rcases Fragment.kind_of_mem_reread_items hk with ⟨names, h⟩ | ⟨brace, h⟩
    · simp [Item.declared, Item.exportedNames, h]
    · simp [Item.declared, Item.exportedNames, h]
  rw [← Fragment.exportedNames_reread_items, EsModule.exportedNames, List.mem_flatMap]
  exact exists_congr fun k => and_congr_right fun hk => by rw [same k hk]

/-- Whether a name is bound by the tree, by a declaration of which some name stays exported, or by
a plain item. -/
def Bound (p : Policy) (t : Tree) (m : EsModule) (n : String) : Prop :=
  n ∈ Fragment.names t ∨
  (∃ i ∈ m, ∃ names, i.kind = .declaration names ∧ n ∈ names ∧ ∃ k ∈ names, stays p t k = true) ∨
  ∃ i ∈ m, i.isPlain ∧ n ∈ i.declared

theorem demoted_mem_strip {stays : String → Bool} {i : Item} {names : List String}
    (h : i.kind = .declaration names) (hs : ∃ k ∈ names, stays k = true)
    (hno : ¬∀ k ∈ names, stays k = true) :
    i.strip stays = [i.demoted names, i.listOf (names.filter stays)] := by
  have some : ¬(names.filter stays).isEmpty := by simpa using hs
  rw [Item.strip_declaration h, if_neg (fun hl => hno (Item.filter_length_eq.mp hl)), if_neg some]

theorem bound_iff {s : List Char} (h : ofText? s = .ok m) :
    (∃ k ∈ output p t m, n ∈ k.declared) ↔ Bound p t m n := by
  unfold output
  simp only [List.mem_append, or_and_right, exists_or, declared_fragment, stripped_eq,
    List.mem_flatMap]
  constructor
  · rintro (⟨j, ⟨i, hi, hj⟩, hn⟩ | hn)
    · rcases declared_cases (Item.remains_of_mem_strip hj)
        (ne_localDeclaration_of_ofText? h hi) hn with ⟨hplain, rfl⟩ | ⟨names, hk, hmem, hs⟩
      · exact .inr (.inr ⟨j, hi, hplain, hn⟩)
      · refine .inr (.inl ⟨i, hi, names, hk, hmem, ?_⟩)
        exact hs.elim (fun hall => ⟨n, hmem, hall n hmem⟩) And.left
    · exact .inl hn
  · rintro (hn | ⟨i, hi, names, hk, hmem, hs⟩ | ⟨i, hi, hplain, hn⟩)
    · exact .inr hn
    · by_cases hall : ∀ k ∈ names, stays p t k = true
      · refine .inl ⟨i, ⟨i, hi, ?_⟩, by simpa [Item.declared, hk] using hmem⟩
        rw [Item.strip_declaration hk, if_pos (Item.filter_length_eq.mpr hall)]
        exact List.mem_singleton_self i
      · refine .inl ⟨i.demoted names, ⟨i, hi, ?_⟩, hmem⟩
        rw [demoted_mem_strip hk hs hall]
        exact List.mem_cons_self
    · have hm : i ∈ stripped (stays p t) m := mem_stripped_of_plain hi hplain
      rw [stripped_eq, List.mem_flatMap] at hm
      exact .inl ⟨i, hm, hn⟩

/-- The bindings that lists without a module name still export: those of the lists of the module
whose exports stay, and those of declarations that are taken apart. -/
theorem ownSpecifier_cases {stays : String → Bool} {i j : Item} {e : Specifier}
    (h : i.Remains stays j) (he : e ∈ j.ownSpecifiers) :
    (e ∈ i.ownSpecifiers ∧ e.exported ≠ "default" ∧ stays e.exported = true) ∨
      ∃ names, i.kind = .declaration names ∧ e.name ∈ names ∧ ∃ k ∈ names, stays k = true := by
  cases h with
  | untouched h =>
    simp only [List.mem_cons, List.not_mem_nil, or_false] at h
    rcases h with h | h | h <;> simp [Item.ownSpecifiers, h] at he
  | unexported h => simp [Item.ownSpecifiers, h] at he
  | star h => simp [Item.ownSpecifiers, h] at he
  | exported h => simp [Item.ownSpecifiers, h] at he
  | demoted => simp [Item.ownSpecifiers, Item.demoted] at he
  | @reexported names h hs =>
    obtain ⟨k, hk, rfl⟩ := List.mem_map.mp he
    exact .inr ⟨names, h, (List.mem_filter.mp hk).1, hs⟩
  | @listed specifiers source h hkept =>
    have hm : e ∈ specifiers := by
      cases source with
      | none => simpa [Item.ownSpecifiers, h] using he
      | some source => simp [Item.ownSpecifiers, h] at he
    exact .inl ⟨he, hkept e hm⟩
  | @narrowed specifiers source h =>
    cases source with
    | some source => simp [Item.ownSpecifiers, Item.rewritten] at he
    | none =>
      obtain ⟨hm, hs⟩ := List.mem_filter.mp he
      simp only [Bool.and_eq_true, decide_eq_true_eq] at hs
      exact .inl ⟨by simpa [Item.ownSpecifiers, h] using hm, hs⟩

theorem exists_ownSpecifier {stays : String → Bool} {i : Item} {e : Specifier}
    (he : e ∈ i.ownSpecifiers) (hd : e.exported ≠ "default") (hs : stays e.exported = true) :
    ∃ j ∈ i.strip stays, e ∈ j.ownSpecifiers := by
  cases hk : i.kind with
  | exportList specifiers source =>
    cases source with
    | some source => simp [Item.ownSpecifiers, hk] at he
    | none =>
      have hm : e ∈ specifiers := by simpa [Item.ownSpecifiers, hk] using he
      have hkept : e ∈ Item.kept (fun n => decide (n ≠ "default") && stays n) specifiers :=
        List.mem_filter.mpr ⟨hm, by simp [hd, hs]⟩
      rw [Item.strip_list hk, Item.retainSpecifiers_list hk]
      split
      · exact ⟨i, by simp, he⟩
      · rw [if_neg (by simpa using List.ne_nil_of_mem hkept)]
        exact ⟨_, List.mem_singleton_self _, hkept⟩
  | _ => simp [Item.ownSpecifiers, hk] at he

def ExportsBinding (m : EsModule) (n : String) : Prop :=
  ∃ i ∈ m, ∃ names, i.kind = .declaration names ∧ n ∈ names

/-- Lists name only what is declared, as far as exported declarations declared it before. -/
def NothingDangles (p : Policy) (t : Tree) (m : EsModule) : Prop :=
  ∀ j ∈ output p t m, ∀ e ∈ j.ownSpecifiers, ExportsBinding m e.name →
    ∃ k ∈ output p t m, e.name ∈ k.declared

theorem nothingDangles_iff {s : List Char} (h : ofText? s = .ok m) :
    NothingDangles p t m ↔ ∀ i ∈ m, ∀ e ∈ i.ownSpecifiers, e.exported ≠ "default" →
      stays p t e.exported = true → ExportsBinding m e.name → Bound p t m e.name := by
  unfold NothingDangles
  simp only [bound_iff h]
  constructor
  · intro hd i hi e he hne hs
    obtain ⟨j, hj, hej⟩ := exists_ownSpecifier he hne hs
    refine hd j (List.mem_append_left _ ?_) e hej
    rw [stripped_eq]
    exact List.mem_flatMap.mpr ⟨i, hi, hj⟩
  · intro hb j hj e he hex
    rcases List.mem_append.mp hj with hj | hj
    · rw [stripped_eq] at hj
      obtain ⟨i, hi, hj⟩ := List.mem_flatMap.mp hj
      rcases ownSpecifier_cases (Item.remains_of_mem_strip hj) he with
        ⟨hei, hne, hs⟩ | ⟨names, hk, hmem, hs⟩
      · exact hb i hi e hei hne hs hex
      · exact .inr (.inl ⟨i, hi, names, hk, hmem, hs⟩)
    · rcases Fragment.kind_of_mem_reread_items hj with ⟨names, hk⟩ | ⟨brace, hk⟩
      · simp [Item.ownSpecifiers, hk] at he
      · simp [Item.ownSpecifiers, hk] at he

/-- Under the policy that only makes way for the tree, a declaration of which nothing stays exported
is one of names of the tree. -/
theorem bound_of_plain {n : String} (h : ExportsBinding m n) : Bound .plain t m n := by
  obtain ⟨i, hi, names, hk, hn⟩ := h
  by_cases hs : ∃ k ∈ names, stays .plain t k = true
  · exact .inr (.inl ⟨i, hi, names, hk, hn, hs⟩)
  · refine .inl (stays_plain.mp ?_)
    rw [Bool.eq_false_iff]
    exact fun hst => hs ⟨n, hn, hst⟩

end

/-- Removing exports leaves no list that names a removed declaration, exactly if every binding that a
list still exports is bound by the tree, by a declaration of which some name stays exported, or by a
plain item; this is so under the policy that only makes way for the tree. -/
theorem bound_synthesize {t : Tree} {p : Policy} {d code name : String} {inline : Bool}
    {m : EsModule} (hp : p ≠ .merge) (hd : ofText? d.toList = .ok m)
    (h : synthesize t d p inline name = .ok code) :
    code.toList = toText (output p t m) ∧
    (NothingDangles p t m ↔ ∀ i ∈ m, ∀ e ∈ i.ownSpecifiers, e.exported ≠ "default" →
      stays p t e.exported = true → ExportsBinding m e.name → Bound p t m e.name) ∧
    (p = .plain → NothingDangles p t m) := by
  refine ⟨(synthesize_eq_ok hp hd h).2, nothingDangles_iff hd, ?_⟩
  rintro rfl
  exact (nothingDangles_iff hd).mpr fun _ _ _ _ _ _ hex => bound_of_plain hex

theorem bound_synthesize_plain : ∃ d code m, ofText? d.toList = .ok m ∧
    synthesize (.leaf "a" "1" .empty) d .plain false "sharedData" = .ok code ∧
    NothingDangles .plain (.leaf "a" "1" .empty) m := by
  let d := "export const a = 1;\nexport \x7b a as b \x7d;"
  let code := "export \x7b a as b \x7d;\nexport const a = \"1\";\nexport default \x7b\n\ta\n\x7d;\n"
  let m : EsModule := [⟨"export const a = 1;".toList, 0, 19, .declaration ["a"]⟩,
    ⟨"export \x7b a as b \x7d;".toList, 20, 38, .exportList [⟨"a", "b"⟩] none⟩]
  have hd : ofText? d.toList = .ok m := by decide +kernel
  have h : synthesize (.leaf "a" "1" .empty) d .plain false "sharedData" = .ok code := by
    decide +kernel
  obtain ⟨-, -, bound⟩ := bound_synthesize (by decide) hd h
  exact ⟨d, code, m, hd, h, bound rfl⟩

/-- A declaration goes although an alias of its name belongs to the host. -/
theorem dangles_of_alias : ∃ d code m, ofText? d.toList = .ok m ∧
    synthesize (.leaf "x" "1" .empty) d .override false "sharedData" = .ok code ∧
    ¬NothingDangles .override (.leaf "x" "1" .empty) m := by
  let d := "export const a_1 = \"x\";\nexport \x7b a_1 as __vite__a \x7d;"
  let code := "export \x7b a_1 as __vite__a \x7d;\nexport const x = \"1\";\n" ++
    "export default \x7b\n\tx\n\x7d;\n"
  let list : Item :=
    ⟨"export \x7b a_1 as __vite__a \x7d;".toList, 24, 52, .exportList [⟨"a_1", "__vite__a"⟩] none⟩
  let m : EsModule := [⟨"export const a_1 = \"x\";".toList, 0, 23, .declaration ["a_1"]⟩, list]
  refine ⟨d, code, m, by decide +kernel, by decide +kernel, fun h => ?_⟩
  have kept : list ∈ output .override (.leaf "x" "1" .empty) m := by decide +kernel
  have bound := h list kept ⟨"a_1", "__vite__a"⟩ (by decide)
    ⟨m[0], List.mem_cons_self, ["a_1"], rfl, by decide⟩
  revert bound
  decide +kernel

end Synthesis

end StyleExports
