import StyleExports.Proofs.Fragment

namespace StyleExports.Synthesis

open EsModule

def stays (p : Policy) (t : Tree) (n : String) : Bool :=
  match p with
  | .plain => !(Fragment.names t).contains n
  | .override => isHostName n && !(Fragment.names t).contains n
  | .merge => true

/-- The first name of the tree that a declaration without its export still declares. -/
def clash? (p : Policy) (t : Tree) (m : EsModule) : Option String :=
  (stripped (stays p t) m).localNames.find? (Fragment.names t).contains

/-- The items that are printed: what remains of the module, and the lines of the tree. -/
def output (p : Policy) (t : Tree) (m : EsModule) : EsModule :=
  stripped (stays p t) m ++ reread (Fragment.items t)

section

variable {p : Policy} {t : Tree} {m : EsModule}

theorem not_stays_of_mem (hp : p ≠ .merge) {n : String} (h : n ∈ Fragment.names t) :
    stays p t n = false := by
  cases p with
  | plain => simp [stays, h]
  | override => simp [stays, h]
  | merge => exact absurd rfl hp

theorem stays_plain {n : String} : stays .plain t n = false ↔ n ∈ Fragment.names t := by
  simp [stays]

/-- No name of a tree is the name `default`, which is reserved. -/
theorem default_not_mem_names (t : Tree) : "default" ∉ Fragment.names t := by
  intro h
  have hv := (List.mem_filter.mp h).2
  revert hv
  decide

theorem stays_default_override (t : Tree) : stays .override t "default" = false := by
  have host : isHostName "default" = false := by decide
  simp [stays, host]

theorem clash?_eq_none :
    clash? p t m = none ↔ ∀ n ∈ (stripped (stays p t) m).localNames, n ∉ Fragment.names t := by
  unfold clash?
  simp

theorem clash?_eq_some {n : String} (h : clash? p t m = some n) :
    n ∈ (stripped (stays p t) m).localNames ∧ n ∈ Fragment.names t := by
  refine ⟨List.mem_of_find?_eq_some h, ?_⟩
  simpa using List.find?_some h

theorem append_eq (m : EsModule) (t : Tree) : append m t =
    match m.localNames.find? (Fragment.names t).contains with
    | some n => .error (.stillDeclared n)
    | none => .ok (String.ofList (toText (m ++ reread (Fragment.items t)))) := by
  have hf : readModule (Fragment.text t) = .ok (reread (Fragment.items t)) := by
    unfold readModule
    rw [Fragment.ofText?_text]
  unfold append
  simp only [hf]
  cases m.localNames.find? (Fragment.names t).contains with
  | some n => rfl
  | none => rfl

theorem synthesize_eq {d : String} {inline : Bool} {name : String} (hp : p ≠ .merge)
    (hd : ofText? d.toList = .ok m) : synthesize t d p inline name =
      match clash? p t m with
      | some n => .error (.stillDeclared n)
      | none => .ok (String.ofList (toText (output p t m))) := by
  have hm : readModule d.toList = .ok m := by
    unfold readModule
    rw [hd]
  unfold synthesize
  simp only [hm, bind, Except.bind]
  cases p with
  | plain => exact append_eq _ t
  | override => exact append_eq _ t
  | merge => exact absurd rfl hp

theorem synthesize_eq_ok {d code : String} {inline : Bool} {name : String} (hp : p ≠ .merge)
    (hd : ofText? d.toList = .ok m) (h : synthesize t d p inline name = .ok code) :
    clash? p t m = none ∧ code.toList = toText (output p t m) := by
  rw [synthesize_eq hp hd] at h
  cases hc : clash? p t m with
  | some n => simp [hc] at h
  | none =>
    simp only [hc, Except.ok.injEq] at h
    exact ⟨rfl, by rw [← h, String.toList_ofList]⟩

end

/-- Names that are no longer exported are those of declarations that are taken apart. -/
theorem mem_localNames_stripped {stays : String → Bool} {m : EsModule}
    (hm : ∀ i ∈ m, ∀ names, i.kind ≠ .localDeclaration names) {n : String} :
    n ∈ (stripped stays m).localNames ↔ ∃ i ∈ m, ∃ names, i.kind = .declaration names ∧
      (∃ k ∈ names, stays k = true) ∧ (∃ k ∈ names, stays k = false) ∧ n ∈ names := by
  rw [stripped_eq]
  unfold EsModule.localNames
  simp only [List.mem_flatMap]
  constructor
  · rintro ⟨j, ⟨i, hi, hj⟩, hn⟩
    unfold Item.localNames at hn
    split at hn
    case h_2 => simp at hn
    rename_i names hk
    cases Item.remains_of_mem_strip hj with
    | demoted h hs hno =>
      obtain rfl : _ = names := by simpa [Item.demoted] using hk
      exact ⟨i, hi, _, h, hs, hno, hn⟩
    | untouched h => simp [hk] at h
    | unexported h => exact absurd h (hm _ hi _)
    | star h => simp [hk] at h
    | exported h => simp [hk] at h
    | listed h => simp [hk] at h
    | reexported => simp [Item.listOf] at hk
    | narrowed => simp [Item.rewritten] at hk
  · rintro ⟨i, hi, names, hk, hs, hno, hn⟩
    refine ⟨i.demoted names, ⟨i, hi, ?_⟩, hn⟩
    have some : ¬(names.filter stays).isEmpty := by simpa using hs
    have other : ¬(names.filter stays).length = names.length := by
      rw [Item.filter_length_eq]
      simpa using hno
    rw [Item.strip_declaration hk, if_neg other, if_neg some]
    exact List.mem_cons_self

/-- Under the policy that only makes way for the tree, a declaration that would be taken apart is a
clash. -/
theorem isWhole_of_plain {t : Tree} {s : List Char} {m : EsModule} (h : ofText? s = .ok m)
    (hc : clash? .plain t m = none) : ∀ i ∈ m, i.IsWhole (stays .plain t) := by
  intro i hi names hk
  by_contra hn
  simp only [not_or, not_forall, Bool.not_eq_true, Bool.not_eq_false] at hn
  obtain ⟨⟨n, hn, hno⟩, k, hkn, hs⟩ := hn
  refine clash?_eq_none.mp hc n ?_ (stays_plain.mp hno)
  exact (mem_localNames_stripped fun j hj => ne_localDeclaration_of_ofText? h hj).mpr
    ⟨i, hi, names, hk, ⟨k, hkn, hs⟩, ⟨n, hn, hno⟩, hn⟩

theorem clash?_of_isWhole {p : Policy} {t : Tree} {s : List Char} {m : EsModule}
    (h : ofText? s = .ok m) (hw : ∀ i ∈ m, i.IsWhole (stays p t)) : clash? p t m = none := by
  refine clash?_eq_none.mpr fun n hn => ?_
  rw [mem_localNames_stripped fun j hj => ne_localDeclaration_of_ofText? h hj] at hn
  obtain ⟨i, hi, names, hk, ⟨a, ha, stay⟩, ⟨b, hb, goes⟩, -⟩ := hn
  rcases hw i hi names hk with all | none
  · exact absurd goes (by simp [all b hb])
  · exact absurd stay (by simp [none a ha])

theorem mergeInto_eq_error {source : List Char} {m : EsModule} {t : Tree} {inline : Bool}
    {name : String} {e : Error} : mergeInto source m t inline name = .error e ↔
      name ∈ m.exportedNames ∧ e = .alreadyExported name := by
  unfold mergeInto
  by_cases hn : name ∈ m.exportedNames
  · simp [hn, eq_comm]
  · rw [if_neg (by simpa using hn)]
    simp only [hn, false_and, iff_false]
    cases anchor? m with
    | none => simp
    | some place => cases inline <;> simp

/-- A module of which no declaration is taken apart is refused only if a tree is merged into it under
a name that it exports already. -/
theorem synthesize_eq_error {p : Policy} {t : Tree} {d name : String} {inline : Bool} {m : EsModule}
    {e : Error} (hd : ofText? d.toList = .ok m) (hw : ∀ i ∈ m, i.IsWhole (stays p t)) :
    synthesize t d p inline name = .error e ↔
      p = .merge ∧ name ∈ m.exportedNames ∧ e = .alreadyExported name := by
  by_cases hp : p = .merge
  · subst hp
    have read : readModule d.toList = .ok m := by rw [readModule, hd]
    have merged : synthesize t d .merge inline name = mergeInto d.toList m t inline name := by
      unfold synthesize
      rw [read]
      rfl
    rw [merged, mergeInto_eq_error]
    simp only [true_and]
  · rw [synthesize_eq hp hd, clash?_of_isWhole hd hw]
    simp [hp]

/-- In a module that is not refused the name `default` does not stay, or no declaration is taken
apart. -/
theorem default_or_isWhole {p : Policy} {t : Tree} {s : List Char} {m : EsModule}
    (hp : p ≠ .merge) (h : ofText? s = .ok m) (hc : clash? p t m = none) :
    stays p t "default" = false ∨ ∀ i ∈ m, i.IsWhole (stays p t) := by
  cases p with
  | plain => exact .inr (isWhole_of_plain h hc)
  | override => exact .inl (stays_default_override t)
  | merge => exact absurd rfl hp

theorem exportedNames_output {p : Policy} {t : Tree} {s : List Char} {m : EsModule}
    (hp : p ≠ .merge) (h : ofText? s = .ok m) (hc : clash? p t m = none) :
    (output p t m).exportedNames = m.exportedNames.filter (stays p t) ++ Fragment.names t := by
  have hd := default_or_isWhole hp h hc
  unfold output
  rw [EsModule.exportedNames, List.flatMap_append]
  exact congrArg₂ (· ++ ·) (exportedNames_stripped hd) (Fragment.exportedNames_reread_items t)

/-- What is printed is read back, if semicolons terminate the statements of the module. -/
theorem stable_of_mem_output {p : Policy} {t : Tree} {m : EsModule} {s : List Char}
    (h : ofText? s = .ok m)
    (ht : ∀ i ∈ m, i.isTerminated = true) (hl : ∀ i ∈ m, i.IsReprintable (stays p t)) :
    ∀ j ∈ output p t m, j.Stable := by
  intro j hj
  rcases List.mem_append.mp hj with hj | hj
  · exact stable_of_mem_stripped h ht hl hj
  · exact stable_of_mem_reread (fun i hi => Fragment.stable_of_mem_items hi) hj

end StyleExports.Synthesis
