import StyleExports.Proofs.Synthesis.Outcome

namespace StyleExports

open EsModule

namespace EsModule

/-- The exports of an item under the name `default`, in all forms. -/
def Item.defaults (i : Item) : List String :=
  match i.kind with
  | .exportDefault _ => ["default"]
  | .exportList specifiers _ => (specifiers.map (·.exported)).filter (· == "default")
  | .exportAll name => name.toList.filter (· == "default")
  | _ => []

def defaults (m : EsModule) : List String := m.flatMap Item.defaults

/-- Whether an item exports everything in another module as the default. -/
def Item.isDefaultStar (i : Item) : Bool := i.kind == .exportAll (some "default")

theorem Item.defaults_of_view {i j : Item} (h : i.view = j.view) : i.defaults = j.defaults := by
  have hk : i.kind.seen = j.kind.seen := congrArg Prod.fst h
  unfold defaults
  cases hi : i.kind <;> cases hj : j.kind <;> simp_all [Kind.seen]

theorem defaults_reread {m : EsModule} (h : ∀ i ∈ m, i.Stable) :
    (reread m).defaults = m.defaults :=
  flatMap_reread h _ fun _ _ he => Item.defaults_of_view he

section

variable {stays : String → Bool} {i j : Item}

theorem Item.defaults_of_remains (hi : stays "default" = false ∨ i.IsWhole stays)
    (hs : ∀ name, i.kind ≠ .exportAll name) (h : i.Remains stays j) : j.defaults = [] := by
  have list {specifiers : List Specifier} {source : Option String}
      (hk : j.kind = .exportList specifiers source)
      (hn : ∀ e ∈ specifiers, e.exported ≠ "default") : j.defaults = [] := by
    unfold defaults
    rw [hk]
    simpa using hn
  cases h with
  | untouched h =>
    simp only [List.mem_cons, List.not_mem_nil, or_false] at h
    unfold defaults
    rcases h with h | h | h <;> rw [h]
  | unexported h => simp [defaults, h]
  | star h => exact absurd h (hs _)
  | exported h => simp [defaults, h]
  | demoted => rfl
  | @reexported names h hsome hother =>
    apply list rfl
    intro e he hd
    obtain ⟨n, hn, rfl⟩ := List.mem_map.mp he
    have hstays : stays "default" = true := hd ▸ (List.mem_filter.mp hn).2
    rcases hi with hf | hw
    · simp [hf] at hstays
    · obtain ⟨a, ha, hat⟩ := hsome
      obtain ⟨b, hb, hbf⟩ := hother
      rcases hw names h with hall | hnone
      · simp [hall b hb] at hbf
      · simp [hnone a ha] at hat
  | listed h hkept => exact list h fun e he => (hkept e he).1
  | narrowed =>
    apply list rfl
    intro e he
    have hk := (List.mem_filter.mp he).2
    simp only [Bool.and_eq_true, decide_eq_true_eq] at hk
    exact hk.1

/-- Of the exports under the name `default` only those of everything in another module stay. -/
theorem Item.defaults_strip (hi : stays "default" = false ∨ i.IsWhole stays) :
    (i.strip stays).flatMap Item.defaults =
      if i.isDefaultStar = true ∧ stays "default" = true then ["default"] else [] := by
  by_cases hs : ∃ name, i.kind = .exportAll name
  · obtain ⟨name, hk⟩ := hs
    rw [strip_star hk]
    cases name with
    | none => split <;> simp [defaults, isDefaultStar, hk]
    | some n =>
      by_cases hn : n = "default"
      · subst hn
        by_cases hd : stays "default" <;> simp [defaults, isDefaultStar, hk, hd]
      · split <;> simp [defaults, isDefaultStar, hk, hn]
  · have hn : ∀ name, i.kind ≠ .exportAll name := fun name h => hs ⟨name, h⟩
    have none : ¬(i.isDefaultStar = true ∧ stays "default" = true) := by
      rintro ⟨h, -⟩
      exact hn _ (beq_iff_eq.mp h)
    rw [if_neg none, List.flatMap_eq_nil_iff]
    exact fun j hj => defaults_of_remains hi hn (remains_of_mem_strip hj)

end

end EsModule

namespace Synthesis

section

variable {p : Policy} {t : Tree} {m : EsModule}

theorem defaults_items (t : Tree) : (Fragment.items t).defaults = ["default"] := by
  have constants (es : List (String × Value)) : (es.map fun e =>
      (⟨Fragment.constant e.1.toList e.2.literal, 0, 0, .declaration [e.1]⟩ : Item)).flatMap
        Item.defaults = [] := by
    rw [List.flatMap_map]
    exact List.flatMap_eq_nil_iff.mpr fun _ _ => rfl
  unfold Fragment.items
  rw [defaults, List.flatMap_append, constants]
  rfl

theorem defaults_output {s : List Char} (hp : p ≠ .merge) (h : ofText? s = .ok m)
    (hc : clash? p t m = none) : (output p t m).defaults.length =
      (if stays p t "default" = true then m.countP Item.isDefaultStar else 0) + 1 := by
  have hd := default_or_isWhole hp h hc
  have hf : (reread (Fragment.items t)).defaults = ["default"] :=
    (defaults_reread fun i hi => Fragment.stable_of_mem_items hi).trans (defaults_items t)
  have kept : ∀ l : EsModule, (∀ i ∈ l, stays p t "default" = false ∨ i.IsWhole (stays p t)) →
      (l.flatMap fun i => (i.strip (stays p t)).flatMap Item.defaults).length =
        if stays p t "default" = true then l.countP Item.isDefaultStar else 0 := by
    intro l hl
    induction l with
    | nil => simp
    | cons i l ih =>
      rw [List.flatMap_cons, List.length_append, ih fun k hk => hl k (List.mem_cons_of_mem _ hk),
        Item.defaults_strip (hl i List.mem_cons_self), List.countP_cons]
      by_cases hs : stays p t "default" <;> by_cases hi : i.isDefaultStar <;>
        simp [hs, hi, Nat.add_comm]
  unfold output
  rw [defaults, List.flatMap_append, List.length_append]
  have hfl := congrArg List.length hf
  rw [defaults] at hfl
  rw [hfl, stripped_eq, List.flatMap_assoc, kept m fun i hi => hd.imp_right fun hw => hw i hi]
  rfl

theorem length_defaults_output {s : List Char} (hp : p ≠ .merge) (h : ofText? s = .ok m)
    (hc : clash? p t m = none) : (output p t m).defaults.length = 1 ↔
      p = .override ∨ ∀ i ∈ m, i.kind ≠ .exportAll (some "default") := by
  have star : m.countP Item.isDefaultStar = 0 ↔ ∀ i ∈ m, i.kind ≠ .exportAll (some "default") := by
    simp [List.countP_eq_zero, Item.isDefaultStar]
  rw [defaults_output hp h hc, ← star]
  cases p with
  | plain =>
    have hd : stays .plain t "default" = true := by
      simp [stays, default_not_mem_names]
    simp [hd]
  | override => simp [stays_default_override]
  | merge => exact absurd rfl hp

/-- The default export of a host makes way for that of the tree. -/
example : (output .plain (.leaf "b" "1" .empty)
    [⟨"export default a;".toList, 0, 17, .exportDefault none⟩]).defaults = ["default"] := by
  decide +kernel

end

/-- The default export of the tree is the only one that is printed, and the only one that is read
again, unless an export of everything in another module as the default stays. -/
theorem defaults_synthesize {t : Tree} {p : Policy} {d code name : String} {inline : Bool}
    {m : EsModule} (hp : p ≠ .merge) (hd : ofText? d.toList = .ok m)
    (h : synthesize t d p inline name = .ok code) :
    code.toList = toText (output p t m) ∧
    ((output p t m).defaults.length = 1 ↔
      p = .override ∨ ∀ i ∈ m, i.kind ≠ .exportAll (some "default")) ∧
    ((∀ i ∈ m, i.isTerminated = true) → (∀ i ∈ m, i.IsReprintable (stays p t)) →
      ∃ r, ofText? code.toList = .ok r ∧ (r.defaults.length = 1 ↔
        p = .override ∨ ∀ i ∈ m, i.kind ≠ .exportAll (some "default"))) := by
  obtain ⟨hc, hcode⟩ := synthesize_eq_ok hp hd h
  have printed := length_defaults_output hp hd hc
  refine ⟨hcode, printed, fun ht hl => ?_⟩
  have hs := stable_of_mem_output hd ht hl
  rw [hcode]
  refine ⟨_, ofText?_toText hs, ?_⟩
  rw [defaults_reread hs]
  exact printed

theorem defaults_synthesize_override : ∃ d code r,
    synthesize (.leaf "b" "1" .empty) d .override false "sharedData" = .ok code ∧
    ofText? code.toList = .ok r ∧ r.defaults.length = 1 := by
  let d := "export * as default from \"./m.js\";\nexport const __vite__css = 0;"
  let code := "export const __vite__css = 0;\nexport const b = \"1\";\n" ++
    "export default \x7b\n\tb\n\x7d;\n"
  let m : EsModule := [⟨"export * as default from \"./m.js\";".toList, 0, 34,
      .exportAll (some "default")⟩,
    ⟨"export const __vite__css = 0;".toList, 35, 64, .declaration ["__vite__css"]⟩]
  have hd : ofText? d.toList = .ok m := by decide +kernel
  have h : synthesize (.leaf "b" "1" .empty) d .override false "sharedData" = .ok code := by
    decide +kernel
  have ht : ∀ i ∈ m, i.isTerminated = true := by decide +kernel
  have hl : ∀ i ∈ m, i.isPlainList Scan.isQuiet = true := by decide +kernel
  obtain ⟨-, -, read⟩ := defaults_synthesize (by decide) hd h
  obtain ⟨r, hr, once⟩ := read ht fun i hi => .inl (hl i hi)
  exact ⟨d, code, r, h, hr, once.mpr (.inl rfl)⟩

/-- Under the policy that only makes way for the tree a second default export is left. -/
theorem two_defaults_of_star : ∃ d code m r, ofText? d.toList = .ok m ∧
    (∀ i ∈ m, i.isTerminated = true) ∧
    synthesize (.leaf "b" "1" .empty) d .plain false "sharedData" = .ok code ∧
    ofText? code.toList = .ok r ∧ r.defaults = ["default", "default"] := by
  refine ⟨"export * as default from \"./m.js\";",
    "export * as default from \"./m.js\";\nexport const b = \"1\";\n" ++
      "export default \x7b\n\tb\n\x7d;\n",
    [⟨"export * as default from \"./m.js\";".toList, 0, 34, .exportAll (some "default")⟩],
    [⟨"export * as default from \"./m.js\";".toList, 0, 34, .exportAll (some "default")⟩,
      ⟨"export const b = \"1\";".toList, 35, 56, .declaration ["b"]⟩,
      ⟨"export default \x7b\n\tb\n\x7d;".toList, 57, 79, .exportDefault (some 72)⟩], ?_⟩
  decide +kernel

end Synthesis

end StyleExports
