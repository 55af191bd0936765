import StyleExports.Proofs.Build.NameClash
import StyleExports.Proofs.Synthesis.Repeat

namespace StyleExports

open Text EsModule

namespace EsModule

theorem Item.text_strip_congr {stays : String → Bool} {i j : Item} (h : i.view = j.view) :
    (i.strip stays).map Item.text = (j.strip stays).map Item.text := by
  obtain ⟨hk, ht⟩ := Prod.mk.inj h
  cases hi : i.kind with
  | declaration names =>
    have hj := Kind.eq_declaration_of_seen (hk.symm.trans (congrArg Kind.seen hi))
    rw [strip_declaration hi, strip_declaration hj]
    split
    · simp [ht]
    split
    · rfl
    · simp [demoted, listOf, ht]
  | exportList specifiers source =>
    have hj := Kind.eq_exportList_of_seen (hk.symm.trans (congrArg Kind.seen hi))
    rw [strip_list hi, strip_list hj, retainSpecifiers_list hi, retainSpecifiers_list hj]
    split
    · simp [ht]
    split
    · rfl
    · simp [rewritten]
  | exportAll name =>
    have hj := Kind.eq_exportAll_of_seen (hk.symm.trans (congrArg Kind.seen hi))
    rw [strip_star hi, strip_star hj]
    split <;> simp [ht]
  | exportDefault brace =>
    rw [strip_default hi]
    rw [hi] at hk
    cases hj : j.kind with
    | exportDefault brace' => rw [strip_default hj]
    | _ => simp [hj, Kind.seen] at hk
  | localDeclaration names =>
    have seen : j.kind.seen ∈ [.importing, .comment, .statement] := by
      rw [← hk, hi]
      simp [Kind.seen]
    rw [strip_unexported hi, strip_of_seen seen]
    simp [ht]
  | _ =>
    have seen : j.kind.seen ∈ [.importing, .comment, .statement] := by
      rw [← hk, hi]
      simp [Kind.seen]
    rw [strip_untouched (by simp [hi]), strip_of_seen seen]
    simp [ht]

theorem text_stripped_reread {m : EsModule} (h : ∀ i ∈ m, i.Stable) (stays : String → Bool) :
    (Synthesis.stripped stays (reread m)).map Item.text =
      m.flatMap fun i => (i.strip stays).map Item.text := by
  rw [stripped_eq, List.map_flatMap]
  exact flatMap_reread h _ fun _ _ hv => Item.text_strip_congr hv

end EsModule

theorem Fragment.mem_names {t : Tree} {n : String} (h : Identifier.isValid n = true) :
    n ∈ names t ↔ n ∈ t.keys := by
  simp [names, h]

namespace Compiler

def styled (r : Request) (css : List Char) : List Char :=
  if r.isClassMap then withSuffixes r.path css else css

/-- The classes that stay exported under their own names beside those of a tree: names that can be
declared and belong to the host. -/
def hostClasses (t : Tree) (css : List Char) : List (List Char) :=
  (classes css).filter fun n =>
    Identifier.isValid (String.ofList n) && Synthesis.isHostName (String.ofList n) &&
      !t.keys.contains (String.ofList n)

/-- The lines of a compiled module that stay beside a tree. -/
def hostLines (t : Tree) (r : Request) (css : List Char) : List (List Char) :=
  if r.isInline then []
  else
    (if t.keys.contains "__vite__css" then []
      else [Fragment.constant binding (Quoted.encode (styled r css))]) ++
    if r.isClassMap then
      (hostClasses t css).map fun n => Fragment.constant n (Quoted.encode (n ++ suffix r.path n))
    else []

theorem strip_constantItem (stays : String → Bool) (name value : List Char) :
    (constantItem name value).strip stays =
      if stays (String.ofList name) then [constantItem name value] else [] := by
  rw [Item.strip_declaration rfl]
  cases hs : stays (String.ofList name) <;> simp [hs]

theorem stays_binding {p : Policy} (hp : p ≠ .merge) (t : Tree) :
    Synthesis.stays p t (String.ofList binding) = !t.keys.contains "__vite__css" := by
  have name : String.ofList binding = "__vite__css" := by decide
  have host : Synthesis.isHostName "__vite__css" = true := by decide
  have mem : (Fragment.names t).contains "__vite__css" = t.keys.contains "__vite__css" := by
    rw [Bool.eq_iff_iff, List.contains_iff_mem, List.contains_iff_mem]
    exact Fragment.mem_names (by decide)
  cases p with
  | plain => rw [name, Synthesis.stays, mem]
  | override => rw [name, Synthesis.stays, mem, host, Bool.true_and]
  | merge => exact absurd rfl hp

theorem filter_bindable (t : Tree) (css : List Char) :
    (bindable (classes css)).filter (fun n => Synthesis.stays .override t (String.ofList n)) =
      hostClasses t css := by
  unfold bindable hostClasses
  rw [List.filter_filter]
  refine List.filter_congr fun n _ => ?_
  cases hv : Identifier.isValid (String.ofList n) with
  | false => simp
  | true =>
    have mem : (Fragment.names t).contains (String.ofList n) = t.keys.contains (String.ofList n) := by
      rw [Bool.eq_iff_iff, List.contains_iff_mem, List.contains_iff_mem]
      exact Fragment.mem_names hv
    rw [Synthesis.stays, mem, Bool.and_true, Bool.true_and]

theorem text_strip_items {p : Policy} {r : Request} (hp : p ≠ .merge)
    (hc : r.isClassMap = true → p = .override) (t : Tree) (css : List Char) :
    (items r css).flatMap (fun i => (i.strip (Synthesis.stays p t)).map Item.text) =
      hostLines t r css := by
  have first (value : List Char) :
      ((constantItem binding value).strip (Synthesis.stays p t)).map Item.text =
        if t.keys.contains "__vite__css" then [] else
          [Fragment.constant binding (Quoted.encode value)] := by
    rw [strip_constantItem, stays_binding hp]
    cases t.keys.contains "__vite__css" <;> rfl
  unfold items hostLines styled
  by_cases hi : r.isInline
  · rw [if_pos hi, if_pos hi]
    rfl
  rw [if_neg hi, if_neg hi]
  by_cases hm : r.isClassMap
  · obtain rfl := hc hm
    have constants : ((bindable (classes css)).map fun n =>
        constantItem n (n ++ suffix r.path n)).flatMap (fun i =>
          (i.strip (Synthesis.stays .override t)).map Item.text) =
        (hostClasses t css).map fun n =>
          Fragment.constant n (Quoted.encode (n ++ suffix r.path n)) := by
      rw [← filter_bindable, List.flatMap_map]
      induction bindable (classes css) with
      | nil => rfl
      | cons n ns ih =>
        rw [List.flatMap_cons, ih, strip_constantItem, List.filter_cons]
        cases Synthesis.stays .override t (String.ofList n) <;> rfl
    simp only [if_pos hm]
    rw [List.cons_append, List.flatMap_cons, List.flatMap_append, constants, first,
      List.flatMap_singleton, Item.strip_default rfl, List.map_nil, List.append_nil]
  · simp only [if_neg hm]
    rw [List.flatMap_cons, List.flatMap_singleton, first, List.append_nil]
    exact List.append_nil _

theorem synthesize_compiled_eq {p : Policy} {r : Request} (hp : p ≠ .merge)
    (hc : r.isClassMap = true → p = .override) (t : Tree) (css name : String) (inline : Bool) :
    synthesize t (compiled r css) p inline name =
      .ok (String.ofList ((hostLines t r css.toList).flatMap (· ++ ['\n']) ++ Fragment.text t)) := by
  have stable : ∀ i ∈ items r css.toList, i.Stable := fun _ hi => (mem_items hi).1
  have whole := isWhole_of_mem_reread r css.toList (Synthesis.stays p t)
  have texts : (Synthesis.output p t (reread (items r css.toList))).map Item.text =
      hostLines t r css.toList ++ (Fragment.items t).map Item.text := by
    have tree := view_reread fun i hi => Fragment.stable_of_mem_items (t := t) hi
    have tree := congrArg (List.map Prod.snd) tree
    rw [List.map_map, List.map_map] at tree
    rw [Synthesis.output, List.map_append, text_stripped_reread stable, text_strip_items hp hc]
    exact congrArg _ tree
  have lines (m : EsModule) : toText m = (m.map Item.text).flatMap (· ++ ['\n']) := by
    rw [toText_eq_flatMap, List.flatMap_map]
  have fragment : ((Fragment.items t).map Item.text).flatMap (· ++ ['\n']) = Fragment.text t := by
    rw [← lines, Fragment.toText_items]
  rw [Synthesis.synthesize_eq hp (ofText?_compiled r css),
    Synthesis.clash?_of_isWhole (ofText?_compiled r css) whole]
  simp only
  rw [lines, texts, List.flatMap_append, fragment]

end Compiler

namespace Plugin

/-- The module of a request for a stylesheet that shares a tree: `css` is what is passed on. -/
def moduleText (r : Request) (t : Tree) (css : List Char) : List Char :=
  if r.isInline then Fragment.text t
  else "import ".toList ++ Quoted.encode r.virtualId.toList ++ ";\n".toList ++
    ((Compiler.hostLines t r css).flatMap (· ++ ['\n']) ++ Fragment.text t)

theorem finished_compiled {p : Plugin} {id : String} {e : Extract}
    (hp : p.policy (Request.ofId id) ≠ .merge) :
    p.finished id e (Compiler.compiled (Request.ofId id) e.passthrough) =
      .ok (String.ofList (moduleText (Request.ofId id) e.tree e.passthrough.toList)) := by
  have overridden : (Request.ofId id).isClassMap = true → p.policy (Request.ofId id) = .override := by
    intro hc
    unfold policy Policy.select at hp ⊢
    rw [hc] at hp ⊢
    simpa using hp
  unfold finished
  simp only [Compiler.synthesize_compiled_eq hp overridden, bind, Except.bind, pure, Except.pure]
  have imports (name : String) : importLine name =
      String.ofList ("import ".toList ++ Quoted.encode name.toList ++ ";\n".toList) := by
    simp only [importLine, Quoted.literal, String.ofList_append, String.ofList_toList]
  unfold moduleText Compiler.hostLines
  cases (Request.ofId id).isInline with
  | true => simp
  | false => simp only [imports, Bool.false_eq_true, if_false, String.ofList_append]

/-- With the reference compiler, the module of a request in scope is the import of what is passed on,
the lines of the compiled module that belong to the host and are no keys of the tree, and the text of
the tree; inline it is the text of the tree alone. -/
theorem run_eq_moduleText (o : Options) {id : String}
    (hs : (⟨o, Compiler.stageName⟩ : Plugin).inScope id = true)
    (hp : Policy.select (Request.ofId id).isClassMap o.global o.merging ≠ .merge) (css : String)
    (x : BuildContext) :
    let e := Extraction.ofText o.casing css.toList
    ∃ ps, Plugin.install ⟨o, Compiler.stageName⟩ [.compiler] = .ok ps ∧
      (ps.run id css x).1 = .ok ⟨String.ofList (moduleText (Request.ofId id)
        (e.extract.tree.merge o.additional) e.extract.passthrough.toList), e.diagnostics⟩ := by
  intro e
  let p : Plugin := ⟨o, Compiler.stageName⟩
  have policy : p.policy (Request.ofId id) ≠ .merge := hp
  refine ⟨_, install_compiler rfl, ?_⟩
  rw [run_compiler hs, finished_compiled policy]
  rfl

/-- A class of the host stays exported and any other does not, and a key of the tree takes the place
of the binding of the stylesheet. -/
theorem run_eq_moduleText_class : ∃ ps,
    Plugin.install ⟨Options.default, Compiler.stageName⟩ [.compiler] = .ok ps ∧
    (ps.run "a.module.css?export" ":export \x7b __vite__css: b \x7d .__vite__x .y \x7b\x7d"
      .fresh).1.map (·.code) =
      .ok ("import \"virtual:css-export/a.module.css.css\";\n" ++
        "export const __vite__x = \"__vite__x_c3a4f7\";\nexport const __vite__css = \"b\";\n" ++
        "export default \x7b\n\t__vite__css\n\x7d;\n") := by
  have scope : (⟨Options.default, Compiler.stageName⟩ : Plugin).inScope "a.module.css?export" =
    true := by decide +kernel
  obtain ⟨ps, hps, hr⟩ := run_eq_moduleText Options.default scope (by decide +kernel)
    ":export \x7b __vite__css: b \x7d .__vite__x .y \x7b\x7d" .fresh
  refine ⟨ps, hps, ?_⟩
  rw [hr]
  decide +kernel

end Plugin

end StyleExports
