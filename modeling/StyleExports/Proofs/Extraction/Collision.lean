import StyleExports.Extraction
import StyleExports.Proofs.Stylesheet.Cutting
import StyleExports.Proofs.Tree.Walk

namespace StyleExports

open Stylesheet

def Export.collisionCode : String := (Export.Finding.collision []).code

theorem Export.Finding.code_eq_collisionCode {x : Export.Finding} {p : Text.Span} :
    (x.diagnostic p).code = Export.collisionCode ↔ ∃ q, x = .collision q := by
  have own : (x.diagnostic p).code = x.code := rfl
  rw [own]
  cases x <;> simp [code, Export.collisionCode]

namespace ExportRule

/-- The warnings on the leaves in the way of a rule. A rule that is not accepted meets none. -/
def collisions (source : List Char) (f : Option (String → String)) (r : ExportRule) (t : Tree) :
    Diagnostics :=
  if r.isAccepted then
    (t.leavesOn (r.path f)).map fun q => (Export.Finding.collision q).diagnostic (r.span source)
  else []

variable {source : List Char} {f : Option (String → String)} {r : ExportRule} {t : Tree}

/-- An accepted rule meets at most one leaf, the one that a start of its path leads to. -/
theorem mem_collisions : (r.collisions source f t).length ≤ 1 ∧
    ∀ d, d ∈ r.collisions source f t ↔ r.isAccepted = true ∧ ∃ q x, q <+: r.path f ∧
      t.getPath? q = some (.leaf x) ∧ d = (Export.Finding.collision q).diagnostic (r.span source) := by
  rw [collisions]
  split
  · rename_i accepted
    refine ⟨?_, fun d => ?_⟩
    · rw [List.length_map, Tree.leavesOn_eq, List.length_map, ← Tree.leavesMet_eq]
      exact Tree.length_leavesMet _ t
    · simp only [accepted, true_and, List.mem_map, Tree.leavesOn, List.mem_filter, List.mem_inits,
        Value.isLeaf_iff]
      constructor
      · rintro ⟨q, ⟨hq, x, hx⟩, rfl⟩
        exact ⟨q, x, hq, hx, rfl⟩
      · rintro ⟨q, x, hq, hx, rfl⟩
        exact ⟨q, ⟨hq, x, hx⟩, rfl⟩
  · rename_i rejected
    simp [rejected]

theorem filter_pathDiagnostics :
    (r.pathDiagnostics source f).filter (·.code = Export.collisionCode) = [] := by
  rw [List.filter_eq_nil_iff]
  intro d hd
  obtain ⟨i, -, hi⟩ := List.mem_filterMap.mp hd
  obtain ⟨x, hx, rfl⟩ := Option.map_eq_some_iff.mp hi
  rw [decide_eq_true_eq]
  intro hcode
  obtain ⟨q, rfl⟩ := Export.Finding.code_eq_collisionCode.mp hcode
  unfold finding? at hx
  split at hx
  · simp at hx
  · split at hx <;> simp at hx

theorem filter_writeDiagnostics :
    (r.writeDiagnostics source f t).filter (·.code = Export.collisionCode) =
      (t.leavesOn (r.path f)).map fun q =>
        (Export.Finding.collision q).diagnostic (r.span source) := by
  have nested : (Export.Finding.nestedRule.diagnostic (r.span source)).code ≠ Export.collisionCode :=
    fun h => by simpa using Export.Finding.code_eq_collisionCode.mp h
  have collision (q : List String) :
      ((Export.Finding.collision q).diagnostic (r.span source)).code = Export.collisionCode := rfl
  simp only [writeDiagnostics, Tree.leavesOn_eq]
  cases t.collision? (r.path f) <;> cases r.nested <;> simp [nested, collision]

theorem filter_diagnostics : (r.diagnostics source f t).filter (·.code = Export.collisionCode) =
    r.collisions source f t := by
  rw [diagnostics, List.filter_append, filter_pathDiagnostics, List.nil_append, collisions]
  split
  · exact filter_writeDiagnostics
  · rfl

end ExportRule

namespace Extraction

/-- Rules with the trees that they are written into, one after the other. -/
def stages (f : Option (String → String)) : List ExportRule → Tree → List (ExportRule × Tree)
  | [], _ => []
  | r :: rules, t => (r, t) :: stages f rules (r.write f t)

theorem map_stages (f : Option (String → String)) (rules : List ExportRule) (t : Tree) :
    (stages f rules t).map (·.1) = rules := by
  induction rules generalizing t with
  | nil => rfl
  | cons r rules ih => rw [stages, List.map_cons, ih]

theorem filter_diagnosticsOn (p : Diagnostic → Bool) (source : List Char)
    (f : Option (String → String)) (rules : List ExportRule) (t : Tree) :
    (diagnosticsOn source f rules t).filter p =
      (stages f rules t).flatMap fun (r, t) => (r.diagnostics source f t).filter p := by
  induction rules generalizing t with
  | nil => rfl
  | cons r rules ih => rw [diagnosticsOn, List.filter_append, ih, stages, List.flatMap_cons]

/-- Of the diagnostics on a text those on its export rules, where blocks that nothing closes do not
matter. -/
theorem filter_diagnostics {p : Diagnostic → Bool}
    (hp : ∀ span, p (Export.Finding.unclosedBlock.diagnostic span) = false)
    (f : Option (String → String)) (s : List Char) : (ofTextWith f s).diagnostics.filter p =
      (stages f ((Sheet.ofText s).exportRules 0) .empty).flatMap fun (r, t) =>
        (r.diagnostics s f t).filter p := by
  have unclosed : (unclosedDiagnostics s).filter p = [] := by
    rw [List.filter_eq_nil_iff]
    intro d hd
    obtain ⟨n, -, rfl⟩ := List.mem_map.mp hd
    rw [hp]
    exact Bool.false_ne_true
  rw [ofTextWith, List.filter_append, filter_diagnosticsOn, unclosed, List.append_nil]

end Extraction

def stages (f : Option (String → String)) (s : List Char) : List (ExportRule × Tree) :=
  Extraction.stages f ((Sheet.ofText s).exportRules 0) .empty

/-- A walk down a path makes nodes along it and changes nothing else, and it notes at most one leaf that
gave way. Of the accepted export rules in the outline of a text exactly those that meet such a leaf are warned
of, each once and with the path of the leaf. -/
theorem collisions_ofTextWith :
    (∀ (p : List String) (t : Tree), Tree.Walked p t (t.drill id p) (Tree.leavesMet p t)) ∧
      ∀ (f : Option (String → String)) (s : List Char),
        (stages f s).map (·.1) = (outline s).exportRules ∧
        (Extraction.ofTextWith f s).diagnostics.filter (·.code = Export.collisionCode) =
            (stages f s).flatMap (fun (r, t) => r.collisions s f t) ∧
          ∀ (r : ExportRule) (t : Tree), (r.collisions s f t).length ≤ 1 ∧
            ∀ d, d ∈ r.collisions s f t ↔ r.isAccepted = true ∧ ∃ q x, q <+: r.path f ∧
              t.getPath? q = some (.leaf x) ∧
              d = (Export.Finding.collision q).diagnostic (r.span s) := by
  refine ⟨Tree.walked_drill, fun f s => ⟨?_, ?_, fun r t => ExportRule.mem_collisions⟩⟩
  · rw [stages, Extraction.map_stages, exportRules_outline]
  rw [Extraction.filter_diagnostics fun _ => decide_eq_false fun h => by
    simpa using Export.Finding.code_eq_collisionCode.mp h]
  simp only [ExportRule.filter_diagnostics]
  rfl

example : ((Extraction.ofTextWith none
    ":export a \x7b b: 1 \x7d :export a b c \x7b d: 2 \x7d :export a b \x7b e: 3 \x7d".toList)
      |>.diagnostics.map (·.message)) = ["`a b` was a value and is now replaced by an object"] := by
  decide +kernel

end StyleExports
