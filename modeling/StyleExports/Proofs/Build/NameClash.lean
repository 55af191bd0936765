import StyleExports.Proofs.Build.Compiler
import StyleExports.Proofs.Build.TwoPhases
import StyleExports.Proofs.Synthesis.Outcome

namespace StyleExports

open EsModule

def Transform.compiler : Transform where
  name := Compiler.stageName
  apply id w := .ok (Compiler.compile? (Request.ofId id) w.code, w.diagnostics)

namespace Compiler

theorem synthesize_compiled {r : Request} {css name : String} {t : Tree} {policy : Policy}
    {inline : Bool} {e : Error} (h : Identifier.isValid name = true) :
    synthesize t (compiled r css) policy inline name = .error e ↔
      policy = .merge ∧ (r.isInline = false ∧ (name = "__vite__css" ∨ r.isClassMap = true ∧
        ∃ s ∈ selectors (Stylesheet.Sheet.ofText css.toList), name.toList ∈ classNames s)) ∧
      e = .alreadyExported name := by
  rw [Synthesis.synthesize_eq_error (ofText?_compiled r css) (isWhole_of_mem_reread r _ _),
    mem_exportedNames_compiled h]

end Compiler

namespace Plugin

variable {p : Plugin} {id : String}

theorem install_compiler (hp : p.downstream = Compiler.stageName) :
    p.install [.compiler] = .ok [.extraction p, .synthesis p .compiler] := by
  have apart : ∀ f ∈ [Transform.compiler], f.name ≠ stageName := by
    intro f hf
    obtain rfl := List.mem_singleton.mp hf
    decide
  exact @install_eq p [] [] Transform.compiler apart (by simp) hp.symm

theorem finalizeWork_of_waits {e : Extract} {x : BuildContext} (h : x.results id = some e)
    (w : Work) : p.finalizeWork id w x =
      ((p.finished id e w.code).map fun code => { w with code := code }, x.drop id) := by
  unfold finalizeWork finalize
  simp only [h]
  cases p.finished id e w.code <;> rfl

/-- In scope, the second phase finds what the first has extracted, and the module of what is left.
What is left stays remembered, and nothing waits any more. -/
theorem run_compiler_eq (hs : p.inScope id = true) (css : String) (x : BuildContext) :
    Pipeline.run id css [.extraction p, .synthesis p .compiler] x =
      ((p.finished id (p.extraction css).extract
        (Compiler.compiled (Request.ofId id) (p.extraction css).extract.passthrough)).map
          fun code => ⟨code, (p.extraction css).diagnostics⟩,
        (remember id (p.extraction css).extract x).drop id) := by
  have first : p.extractWork id ⟨css, []⟩ x =
      (⟨(p.extraction css).extract.passthrough, (p.extraction css).diagnostics⟩,
        remember id (p.extraction css).extract x) := by
    unfold extractWork extract
    rw [if_pos hs]
    rfl
  have run : Pipeline.run id css [.extraction p, .synthesis p .compiler] x =
      p.twoPhases [] Transform.compiler [] id css x := @run_around p [] [] Transform.compiler id css x
  generalize p.extraction css = e at first ⊢
  have compiles : Transform.compiler.outcome id ⟨e.extract.passthrough, e.diagnostics⟩ =
      .ok ⟨Compiler.compiled (Request.ofId id) e.extract.passthrough, e.diagnostics⟩ := by
    simp only [inScope, Bool.and_eq_true, Bool.not_eq_true'] at hs
    simp only [Transform.outcome, Transform.compiler, Compiler.compile?_eq hs.1.1 hs.1.2]
    rfl
  have ends := finalizeWork_of_waits (p := p) (x := remember id e.extract x)
    (BuildContext.results_store_self e.extract)
  rw [run]
  unfold twoPhases
  simp only [Transform.applyAll, first, compiles, ends]
  cases p.finished id e.extract _ <;> rfl

theorem run_compiler (hs : p.inScope id = true) (css : String) (x : BuildContext) :
    (Pipeline.run id css [.extraction p, .synthesis p .compiler] x).1 =
      (p.finished id (p.extraction css).extract
        (Compiler.compiled (Request.ofId id) (p.extraction css).extract.passthrough)).map
          fun code => ⟨code, (p.extraction css).diagnostics⟩ :=
  congrArg Prod.fst (run_compiler_eq hs css x)

theorem finished_eq_error {e : Extract} {code : String} {fault : Error} :
    p.finished id e code = .error fault ↔ synthesize e.tree code (p.policy (Request.ofId id))
      (Request.ofId id).isInline p.options.sharedName = .error fault := by
  unfold finished
  simp only
  cases synthesize e.tree code (p.policy (Request.ofId id)) (Request.ofId id).isInline
    p.options.sharedName with
  | error f => rfl
  | ok out => simp [bind, Except.bind, pure, Except.pure]

/-- A request in scope fails to be built with the compiler exactly if shared data is merged into a
module that is not inline and exports the chosen name already: as the stylesheet, or as a class in the
selectors of what is left of it. -/
theorem run_compiler_fails {o : Options} (ho : o.check = .ok o) {id : String}
    (hs : (⟨o, Compiler.stageName⟩ : Plugin).inScope id = true) (css : String) (x : BuildContext) :
    let p : Plugin := ⟨o, Compiler.stageName⟩
    let r := Request.ofId id
    let rest := (p.extraction css).extract.passthrough.toList
    ∃ ps, p.install [.compiler] = .ok ps ∧
      ((∃ e, (ps.run id css x).1 = .error e) ↔ p.policy r = .merge ∧ r.isInline = false ∧
        (o.sharedName = "__vite__css" ∨ r.isClassMap = true ∧
          ∃ s ∈ Compiler.selectors (Stylesheet.Sheet.ofText rest),
            o.sharedName.toList ∈ Compiler.classNames s)) ∧
      ∀ e, (ps.run id css x).1 = .error e → e = .alreadyExported o.sharedName := by
  intro p r rest
  have valid : Identifier.isValid o.sharedName = true := by
    unfold Options.check at ho
    split at ho
    · assumption
    · cases ho
  have fails (e : Error) :
      (Pipeline.run id css [.extraction p, .synthesis p .compiler] x).1 = .error e ↔
        p.policy r = .merge ∧ (r.isInline = false ∧ (o.sharedName = "__vite__css" ∨
          r.isClassMap = true ∧ ∃ s ∈ Compiler.selectors (Stylesheet.Sheet.ofText rest),
            o.sharedName.toList ∈ Compiler.classNames s)) ∧ e = .alreadyExported o.sharedName := by
    rw [← Compiler.synthesize_compiled valid, ← finished_eq_error, run_compiler hs]
    cases p.finished id (p.extraction css).extract _ <;> simp [Except.map]
  refine ⟨_, install_compiler rfl, ?_, ?_⟩
  · constructor
    · rintro ⟨e, he⟩
      obtain ⟨merge, clash, -⟩ := (fails e).mp he
      exact ⟨merge, clash⟩
    · rintro ⟨merge, clash⟩
      exact ⟨_, (fails _).mpr ⟨merge, clash, rfl⟩⟩
  · intro e he
    exact ((fails e).mp he).2.2

/-- Shared data does not join under the name of a class of the stylesheet, but under that of an element
it does. -/
theorem run_compiler_fails_class : ∃ (p : Plugin) (ps : Pipeline),
    p.install [.compiler] = .ok ps ∧
    (ps.run "a.module.css?export" ":export \x7b a: b \x7d .box:hover \x7b\x7d" .fresh).1 =
      .error (.alreadyExported "box") ∧
    ¬∃ e, (ps.run "a.module.css?export" ":export \x7b a: b \x7d #box \x7b\x7d" .fresh).1 =
      .error e := by
  let o : Options := { Options.default with merging := true, sharedName := "box" }
  let p : Plugin := ⟨o, Compiler.stageName⟩
  let id := "a.module.css?export"
  have accepted : o.check = .ok o := if_pos (by decide +kernel)
  have scope : p.inScope id = true := by decide +kernel
  obtain ⟨ps, hps, fails, only⟩ := run_compiler_fails accepted scope
    ":export \x7b a: b \x7d .box:hover \x7b\x7d" .fresh
  obtain ⟨qs, hqs, passes, -⟩ := run_compiler_fails accepted scope
    ":export \x7b a: b \x7d #box \x7b\x7d" .fresh
  obtain rfl : ps = qs := Except.ok.inj (hps.symm.trans hqs)
  obtain ⟨e, he⟩ := fails.mpr (by decide +kernel)
  refine ⟨p, ps, hps, by rw [he, only e he], ?_⟩
  rw [passes]
  decide +kernel

end Plugin

end StyleExports
