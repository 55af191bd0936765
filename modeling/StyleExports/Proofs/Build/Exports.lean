import Mathlib.Data.List.Nodup
import StyleExports.Proofs.Build.Compiler
import StyleExports.Proofs.Synthesis.Defaults
import StyleExports.Proofs.Text.FirstUse

namespace StyleExports

open EsModule

namespace Compiler

theorem defaults_items (r : Request) (css : List Char) : (items r css).defaults = ["default"] := by
  have constants (ns : List (List Char)) : (ns.map fun n =>
      constantItem n (n ++ suffix r.path n)).flatMap Item.defaults = [] := by
    rw [List.flatMap_map]
    exact List.flatMap_eq_nil_iff.mpr fun _ _ => rfl
  unfold items
  split
  · rfl
  split
  · rw [defaults, List.flatMap_append, List.flatMap_cons, constants]
    rfl
  · rfl

/-- A module exports no name twice, unless a class takes the name of the stylesheet. -/
theorem nodup_exportedNames_items (r : Request) (css : List Char) :
    (items r css).exportedNames.Nodup ↔
      r.isInline = true ∨ r.isClassMap = false ∨ binding ∉ classes css := by
  have name : String.ofList binding = "__vite__css" := by decide
  have apart : ((bindable (classes css)).map String.ofList).Nodup :=
    ((Text.nodup_eraseDups _).filter _).map fun _ _ => String.ofList_injective
  have taken : "__vite__css" ∈ (bindable (classes css)).map String.ofList ↔
      binding ∈ classes css := by
    rw [← name, List.mem_map]
    constructor
    · rintro ⟨n, hn, he⟩
      exact String.ofList_injective he ▸ (List.mem_filter.mp hn).1
    · exact fun h => ⟨binding, List.mem_filter.mpr ⟨h, isValid_binding⟩, rfl⟩
  rw [exportedNames_items]
  cases r.isInline with
  | true => simp
  | false =>
    cases r.isClassMap with
    | true => simp [List.nodup_cons, apart, taken]
    | false => simp

/-- A stylesheet is compiled to a module that can be read and has one default export. The module exports
no name twice, exactly unless classes are exported and one of them has the name of the stylesheet. -/
theorem compile?_exports {r : Request} (hs : r.isStylesheet = true) (hv : r.isVirtual = false)
    (css : String) : ∃ code m, compile? r css = some code ∧ ofText? code.toList = .ok m ∧
      m.defaults = ["default"] ∧ (m.exportedNames.Nodup ↔
        r.isInline = true ∨ r.isClassMap = false ∨
          ∀ s ∈ selectors (Stylesheet.Sheet.ofText css.toList), binding ∉ classNames s) := by
  have stable : ∀ i ∈ items r css.toList, i.Stable := fun _ hi => (mem_items hi).1
  refine ⟨_, _, compile?_eq hs hv css, ofText?_compiled r css, ?_, ?_⟩
  · rw [defaults_reread stable, defaults_items]
  · rw [exportedNames_reread stable, nodup_exportedNames_items, mem_classes]
    simp

/-- Classes with names of their own are exported beside the stylesheet, each once. -/
theorem compile?_exports_classes : ∃ code m,
    compile? (.ofId "a.module.css") ".a .b \x7b\x7d .a \x7b\x7d" = some code ∧
      ofText? code.toList = .ok m ∧ m.defaults = ["default"] ∧ m.exportedNames.Nodup := by
  have request : (Request.ofId "a.module.css").isStylesheet = true ∧
      (Request.ofId "a.module.css").isVirtual = false := by decide +kernel
  obtain ⟨code, m, hc, hm, defaults, distinct⟩ :=
    compile?_exports request.1 request.2 ".a .b \x7b\x7d .a \x7b\x7d"
  exact ⟨code, m, hc, hm, defaults, distinct.mpr (by decide +kernel)⟩

/-- The class `__vite__css` is exported under the name of the stylesheet, which is exported too. -/
theorem exports_binding_twice : ∃ code m,
    compile? (.ofId "a.module.css") ".__vite__css \x7b\x7d" = some code ∧
      ofText? code.toList = .ok m ∧ m.exportedNames = ["__vite__css", "__vite__css"] := by
  let r := Request.ofId "a.module.css"
  have request : r.isStylesheet = true ∧ r.isVirtual = false := by decide +kernel
  refine ⟨_, _, compile?_eq request.1 request.2 _, ofText?_compiled r _, ?_⟩
  rw [exportedNames_reread fun _ hi => (mem_items hi).1]
  decide +kernel

end Compiler

end StyleExports
