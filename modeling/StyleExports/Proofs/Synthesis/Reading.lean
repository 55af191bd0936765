import StyleExports.Proofs.Synthesis.Outcome

namespace StyleExports

open EsModule

namespace EsModule.Item

/-- Whether an item exports nothing and is carried over as it is. -/
def isCarried (i : Item) : Bool :=
  match i.kind with
  | .importing => true
  | .comment => true
  | .statement => true
  | _ => false

def face (i : Item) : Kind × List Char := (i.kind, i.text)

theorem isCarried_iff {i : Item} :
    i.isCarried = true ↔ i.kind ∈ [.importing, .comment, .statement] := by
  unfold isCarried
  cases i.kind <;> simp

theorem face_of_view {i j : Item} (h : i.view = j.view) (hi : i.isCarried = true)
    (hj : ∀ names, j.kind ≠ .localDeclaration names) : i.face = j.face := by
  obtain ⟨hk, ht⟩ := Prod.mk.inj h
  refine Prod.ext ?_ ht
  change i.kind = j.kind
  unfold isCarried at hi
  cases hik : i.kind <;> cases hjk : j.kind <;> simp_all [Kind.seen]

end EsModule.Item

namespace Synthesis

section

variable {p : Policy} {t : Tree} {m : EsModule}

/-- What exports nothing is carried over in order. -/
theorem sublist_stripped (stays : String → Bool) (m : EsModule) :
    (m.filter Item.isCarried).Sublist (stripped stays m) := by
  rw [stripped_eq]
  induction m with
  | nil => exact .slnil
  | cons i m ih =>
    rw [List.flatMap_cons]
    by_cases hi : i.isCarried = true
    · rw [List.filter_cons_of_pos hi, Item.strip_untouched (Item.isCarried_iff.mp hi)]
      exact ih.cons_cons i
    · rw [List.filter_cons_of_neg hi]
      exact ih.trans (List.sublist_append_right _ _)

theorem view_items (t : Tree) : ∃ vs, (Fragment.items t).map Item.view =
    vs ++ [(.exportDefault (some 0), Fragment.defaultExport t)] := by
  unfold Fragment.items
  rw [List.map_append]
  exact ⟨_, rfl⟩

/-- What a reader finds in the text that is synthesised from a module and a tree. -/
structure Carries (p : Policy) (t : Tree) (m r : EsModule) : Prop where
  names : r.exportedNames = m.exportedNames.filter (stays p t) ++ Fragment.names t
  carried : ((m.filter Item.isCarried).map Item.face).Sublist (r.map Item.face)
  last : ∃ i, r.getLast? = some i ∧ i.isDefault = true ∧ i.text = Fragment.defaultExport t

theorem face_sublist {a b : EsModule} (h : (a.map Item.view).Sublist (b.map Item.view))
    (ha : ∀ i ∈ a, i.isCarried = true) (hb : ∀ j ∈ b, ∀ names, j.kind ≠ .localDeclaration names) :
    (a.map Item.face).Sublist (b.map Item.face) := by
  induction b generalizing a with
  | nil =>
    rw [List.map_nil, List.sublist_nil, List.map_eq_nil_iff] at h
    rw [h]
  | cons j b ih =>
    have rest := fun k hk => hb k (List.mem_cons_of_mem j hk)
    cases a with
    | nil => exact List.nil_sublist _
    | cons i a =>
      rw [List.map_cons, List.map_cons, List.cons_sublist_cons'] at h
      rw [List.map_cons, List.map_cons]
      rcases h with h | ⟨hij, h⟩
      · exact (ih (a := i :: a) h ha rest).cons _
      · have hf := Item.face_of_view hij (ha i List.mem_cons_self) (hb j List.mem_cons_self)
        rw [hf]
        exact (ih h (fun k hk => ha k (List.mem_cons_of_mem _ hk)) rest).cons_cons _

/-- The items that are printed are read again. -/
theorem carries_reread {s code : List Char} (hp : p ≠ .merge) (h : ofText? s = .ok m)
    (hc : clash? p t m = none) (hs : ∀ j ∈ output p t m, j.Stable)
    (hr : ofText? code = .ok (reread (output p t m))) : Carries p t m (reread (output p t m)) := by
  have views := view_reread hs
  refine ⟨?_, ?_, ?_⟩
  · rw [exportedNames_reread hs]
    exact exportedNames_output hp h hc
  · refine face_sublist ?_ (fun i hi => (List.mem_filter.mp hi).2) fun j hj =>
      ne_localDeclaration_of_ofText? hr hj
    rw [views]
    exact ((sublist_stripped _ m).trans (List.sublist_append_left _ _)).map _
  · obtain ⟨vs, hv⟩ := view_items t
    have items := view_reread fun i hi => Fragment.stable_of_mem_items (t := t) hi
    rw [output, List.map_append, items, hv, ← List.append_assoc] at views
    have hlast := congrArg List.getLast? views
    rw [List.getLast?_concat, List.getLast?_map, Option.map_eq_some_iff] at hlast
    obtain ⟨i, hi, hview⟩ := hlast
    obtain ⟨hk, htext⟩ := Prod.mk.inj hview
    refine ⟨i, hi, ?_, htext⟩
    unfold Item.isDefault
    revert hk
    cases i.kind <;> simp [Kind.seen]

end

/-- What is synthesised from a module with terminated statements, of which only plain lists are
written anew, is read as a module with the names that stay, the names of the tree, and everything that
exports nothing. -/
theorem readsBack_synthesize {t : Tree} {p : Policy} {d code name : String} {inline : Bool}
    {m : EsModule} (hp : p ≠ .merge) (hd : ofText? d.toList = .ok m)
    (ht : ∀ i ∈ m, i.isTerminated = true) (hl : ∀ i ∈ m, i.IsReprintable (stays p t))
    (h : synthesize t d p inline name = .ok code) :
    ∃ r, ofText? code.toList = .ok r ∧ Carries p t m r := by
  obtain ⟨hc, hcode⟩ := synthesize_eq_ok hp hd h
  have hs := stable_of_mem_output hd ht hl
  have hr := ofText?_toText hs
  rw [hcode]
  exact ⟨_, hr, carries_reread hp hd hc hs hr⟩

theorem readsBack_synthesize_override : ∃ d code m r, ofText? d.toList = .ok m ∧
    synthesize (.leaf "c" "1" .empty) d .override false "sharedData" = .ok code ∧
    ofText? code.toList = .ok r ∧ Carries .override (.leaf "c" "1" .empty) m r ∧
    r.exportedNames = ["__vite__a", "__vite__k", "c"] := by
  let d := "import \"./a.css\";\nexport const __vite__a = 1, b = 2;\nconst k = 3;\n" ++
    "export \x7b k as __vite__k, b as c \x7d from \"./m.js\";\nexport default b;\n"
  let code := "import \"./a.css\";\nconst __vite__a = 1, b = 2;\nexport \x7b __vite__a \x7d;\n" ++
    "const k = 3;\nexport \x7b k as __vite__k \x7d from \"./m.js\";\nexport const c = \"1\";\n" ++
    "export default \x7b\n\tc\n\x7d;\n"
  let m : EsModule := [⟨"import \"./a.css\";".toList, 0, 17, .importing⟩,
    ⟨"export const __vite__a = 1, b = 2;".toList, 18, 52, .declaration ["__vite__a", "b"]⟩,
    ⟨"const k = 3;".toList, 53, 65, .statement⟩,
    ⟨"export \x7b k as __vite__k, b as c \x7d from \"./m.js\";".toList, 66, 114,
      .exportList [⟨"k", "__vite__k"⟩, ⟨"b", "c"⟩] (some "\"./m.js\"")⟩,
    ⟨"export default b;".toList, 115, 132, .exportDefault none⟩]
  have hd : ofText? d.toList = .ok m := by decide +kernel
  have h : synthesize (.leaf "c" "1" .empty) d .override false "sharedData" = .ok code := by
    decide +kernel
  have hl : ∀ i ∈ m, i.isPlainList Scan.isQuiet = true := by decide +kernel
  obtain ⟨r, hr, hc⟩ := readsBack_synthesize (by decide) hd (by decide +kernel)
    (fun i hi => .inl (hl i hi)) h
  refine ⟨d, code, m, r, hd, h, hr, hc, ?_⟩
  rw [hc.names]
  decide +kernel

def isUncommented : Mode → Bool
  | .lineComment => false
  | .blockComment _ => false
  | _ => true

/-- After a blank that is none in the grammar of modules a slash begins a regular expression, and
after the blank that it is written anew with it is a division. -/
theorem not_readsBack_uncommented : ¬∀ (t : Tree) (p : Policy) (d code name : String)
    (inline : Bool) (m : EsModule), p ≠ .merge → ofText? d.toList = .ok m →
    (∀ i ∈ m, i.isTerminated = true) → (∀ i ∈ m, i.isPlainList isUncommented = true) →
    synthesize t d p inline name = .ok code →
    ∃ r, ofText? code.toList = .ok r ∧ Carries p t m r := by
  intro h
  obtain ⟨r, hr, -⟩ := h (.leaf "b" "1" .empty) .plain
    "export \x7b a, b \x7d from\u00a0/;/;"
    "export \x7b a \x7d from /;/;\nexport const b = \"1\";\nexport default \x7b\n\tb\n\x7d;\n"
    "sharedData" false
    [⟨"export \x7b a, b \x7d from\u00a0/;/;".toList, 0, 26,
      .exportList [⟨"a", "a"⟩, ⟨"b", "b"⟩] (some "/;/")⟩]
    (by decide) (by decide +kernel) (by decide +kernel) (by decide +kernel) (by decide +kernel)
  have refused : (ofText? ("export \x7b a \x7d from /;/;\nexport const b = \"1\";\n" ++
      "export default \x7b\n\tb\n\x7d;\n").toList).toOption = none := by decide +kernel
  have hn : (Except.ok r : Except Scan.Placed EsModule).toOption = none := hr ▸ refused
  simp [Except.toOption] at hn

end Synthesis

end StyleExports
