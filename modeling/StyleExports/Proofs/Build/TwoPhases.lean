import Mathlib.Data.List.Basic
import StyleExports.Build.Pipeline

namespace StyleExports

/-- What a stage does with a request: from its id, its code and what was reported about it come new
diagnostics, and new code unless the code is left as it is. -/
structure Transform where
  name : String
  apply : String → Work → Result (Option String × Diagnostics)

namespace Transform

def outcome (f : Transform) (id : String) (w : Work) : Result Work :=
  (f.apply id w).map fun (code, diagnostics) => ⟨code.getD w.code, diagnostics⟩

def stage (f : Transform) : Stage := .transformer f.name f.outcome

def applyAll (id : String) : List Transform → Work → Result Work
  | [], w => .ok w
  | f :: fs, w =>
    match f.outcome id w with
    | .error e => .error e
    | .ok w => applyAll id fs w

end Transform

open Transform

namespace Plugin

/-- The first phase on the work so far: the stylesheet without its export rules, and what was found
wrong with them. -/
def extractWork (p : Plugin) (id : String) (w : Work) (x : BuildContext) : Work × BuildContext :=
  match p.extract id w.code x with
  | (some e, x) => (⟨e.extract.passthrough, w.diagnostics ++ e.diagnostics⟩, x)
  | (none, x) => (w, x)

def finalizeWork (p : Plugin) (id : String) (w : Work) (x : BuildContext) :
    Result Work × BuildContext :=
  match p.finalize id w.code x with
  | (.error e, x) => (.error e, x)
  | (.ok code, x) => (.ok { w with code := code }, x)

/-- The two phases called by hand around the transform `d`, with other transforms before and after.
The first that fails is the last that is called. -/
def twoPhases (p : Plugin) (pre : List Transform) (d : Transform) (post : List Transform)
    (id css : String) (x : BuildContext) : Result Work × BuildContext :=
  match applyAll id pre ⟨css, []⟩ with
  | .error e => (.error e, x)
  | .ok w =>
    let (w, x) := p.extractWork id w x
    match d.outcome id w with
    | .error e => (.error e, x)
    | .ok w =>
      match p.finalizeWork id w x with
      | (.error e, x) => (.error e, x)
      | (.ok w, x) => (applyAll id post w, x)

end Plugin

namespace Stage

variable {p : Plugin} {id : String} {w : Work} {x : BuildContext}

theorem run_extraction : (extraction p).run id w x =
    (.ok (p.extractWork id w x).1, (p.extractWork id w x).2) := by
  unfold run Plugin.extractWork
  rcases p.extract id w.code x with ⟨_ | e, y⟩ <;> rfl

theorem run_transform (f : Transform) : f.stage.run id w x = (f.outcome id w, x) := rfl

theorem finalizeWork_idle (hx : x.results id = none) : p.finalizeWork id w x = (.ok w, x) := by
  rw [Plugin.finalizeWork, Plugin.finalize, hx]

/-- Without an extract that waits, the second phase is left out and would change nothing. -/
theorem run_synthesis (s : Stage) : (synthesis p s).run id w x =
    match s.run id w x with
    | (.error e, x) => (.error e, x)
    | (.ok w, x) => p.finalizeWork id w x := by
  rw [run]
  rcases s.run id w x with ⟨e | v, y⟩
  · rfl
  · by_cases hy : y.results id = none
    · simp [BuildContext.hasResult, hy, finalizeWork_idle hy]
    · have waits : y.hasResult id = true := Option.isSome_iff_ne_none.mpr hy
      simp only [waits, if_true]
      rfl

end Stage

namespace Pipeline

variable {id : String} {x : BuildContext}

theorem runWork_append (ps qs : Pipeline) (w : Work) (x : BuildContext) :
    runWork id (ps ++ qs) w x =
      match runWork id ps w x with
      | (.error e, x) => (.error e, x)
      | (.ok w, x) => runWork id qs w x := by
  induction ps generalizing w x with
  | nil => rfl
  | cons s ps ih =>
    simp only [List.cons_append, runWork]
    rcases s.run id w x with ⟨e | v, y⟩
    · rfl
    · exact ih v y

/-- Stages that belong to no plugin leave the build context alone. -/
theorem runWork_map_stage (fs : List Transform) (w : Work) :
    runWork id (fs.map stage) w x = (applyAll id fs w, x) := by
  induction fs generalizing w with
  | nil => rfl
  | cons f fs ih =>
    have head : f.stage.run id w x = (f.outcome id w, x) := rfl
    simp only [List.map_cons, runWork, applyAll, head]
    cases f.outcome id w with
    | error e => rfl
    | ok v => exact ih v

theorem around_append {p : Plugin} {ps qs : Pipeline} {s : Stage}
    (hps : ∀ r ∈ ps, r.name ≠ p.downstream) (hs : s.name = p.downstream) :
    around p (ps ++ s :: qs) = ps ++ .extraction p :: .synthesis p s :: qs := by
  induction ps with
  | nil => exact if_pos hs
  | cons r ps ih =>
    have rest := ih fun t ht => hps t (List.mem_cons_of_mem r ht)
    rw [List.cons_append, around, if_neg (hps r List.mem_cons_self), rest, List.cons_append]

/-- Putting a plugin around a stage is putting its first phase in front of the stage and wrapping the
stage in the second. -/
theorem around_eq_wrap {p : Plugin} {ps : Pipeline} {n : Nat} (hp : p.downstream ≠ Plugin.stageName)
    (hn : ps.position? p.downstream = some n) :
    ps.around p = wrap p.downstream (.synthesis p) (insertAt n (.extraction p) ps) := by
  have other : (Stage.extraction p).name ≠ p.downstream := hp.symm
  induction ps generalizing n with
  | nil => simp [position?] at hn
  | cons s ps ih =>
    rw [position?, List.findIdx?_cons] at hn
    by_cases hs : s.name = p.downstream
    · obtain rfl : 0 = n := by simpa [hs] using hn
      simp [around, insertAt, wrap, hs, other]
    · simp only [beq_iff_eq, hs, if_false, Option.map_eq_some_iff] at hn
      obtain ⟨m, hm, rfl⟩ := hn
      rw [around, if_neg hs, ih hm]
      simp [insertAt, wrap, hs]

end Pipeline

namespace Plugin

variable {p : Plugin} {pre post : List Transform} {d : Transform} {id css : String}
  {x : BuildContext}

theorem install_eq (hs : ∀ f ∈ pre ++ d :: post, f.name ≠ stageName)
    (hpre : ∀ f ∈ pre, f.name ≠ p.downstream) (hd : d.name = p.downstream) :
    p.install ((pre ++ d :: post).map stage) =
      .ok (pre.map stage ++ .extraction p :: .synthesis p d.stage :: post.map stage) := by
  have absent : Pipeline.position? stageName ((pre ++ d :: post).map stage) = none := by
    refine List.findIdx?_eq_none_iff.mpr fun s hm => ?_
    obtain ⟨f, hf, rfl⟩ := List.mem_map.mp hm
    exact beq_eq_false_iff_ne.mpr (hs f hf)
  have found : (Pipeline.position? p.downstream ((pre ++ d :: post).map stage)).isSome := by
    rw [Pipeline.position?, List.findIdx?_isSome, List.any_eq_true]
    exact ⟨d.stage, List.mem_map_of_mem (by simp), beq_iff_eq.mpr hd⟩
  have apart : ∀ s ∈ pre.map stage, s.name ≠ p.downstream := by
    intro s hm
    obtain ⟨f, hf, rfl⟩ := List.mem_map.mp hm
    exact hpre f hf
  unfold install
  rw [absent, if_neg (by simp), if_pos found, List.map_append, List.map_cons]
  exact congrArg Except.ok (Pipeline.around_append (s := d.stage) apart hd)

theorem run_around : Pipeline.run id css
    (pre.map stage ++ .extraction p :: .synthesis p d.stage :: post.map stage) x =
      p.twoPhases pre d post id css x := by
  unfold Pipeline.run twoPhases
  rw [Pipeline.runWork_append, Pipeline.runWork_map_stage]
  cases applyAll id pre ⟨css, []⟩ with
  | error e => rfl
  | ok w =>
    simp only [Pipeline.runWork, Stage.run_extraction, Stage.run_synthesis, Stage.run_transform]
    cases d.outcome id (p.extractWork id w x).1 with
    | error e => rfl
    | ok v =>
      simp only
      rcases p.finalizeWork id v (p.extractWork id w x).2 with ⟨e | u, y⟩
      · rfl
      · exact Pipeline.runWork_map_stage post u

theorem results_remember {k : String} (h : k ≠ id) (e : Extract) :
    (remember id e x).results k = x.results k := by
  unfold remember BuildContext.store
  simp only [setAt_of_ne h]
  split <;> rfl

theorem results_extractWork {k : String} (h : k ≠ id) (w : Work) :
    (p.extractWork id w x).2.results k = x.results k := by
  unfold extractWork extract
  by_cases hs : p.inScope id
  · rw [if_pos hs]
    exact results_remember h _
  · rw [if_neg hs]

theorem results_finalizeWork (w : Work) :
    (p.finalizeWork id w x).2.results = setAt x.results id none := by
  unfold finalizeWork finalize
  cases hr : x.results id with
  | none =>
    funext k
    by_cases hk : k = id
    · rw [hk, setAt_self, hr]
    · rw [setAt_of_ne hk]
  | some e =>
    simp only
    cases p.finished id e w.code <;> rfl

/-- What waits for other requests is left alone, and after a success nothing waits for this one. -/
theorem results_twoPhases :
    (∀ k ≠ id, (p.twoPhases pre d post id css x).2.results k = x.results k) ∧
      ∀ w y, p.twoPhases pre d post id css x = (.ok w, y) → y.results id = none := by
  unfold twoPhases
  cases applyAll id pre ⟨css, []⟩ with
  | error e => exact ⟨fun k _ => rfl, fun w y h => by simp at h⟩
  | ok w =>
    have first (k : String) (hk : k ≠ id) := results_extractWork (p := p) (x := x) hk w
    simp only
    cases d.outcome id (p.extractWork id w x).1 with
    | error e => exact ⟨first, fun w y h => by simp at h⟩
    | ok v =>
      have second : (p.finalizeWork id v (p.extractWork id w x).2).2.results =
          setAt (p.extractWork id w x).2.results id none := results_finalizeWork v
      have away (k : String) (hk : k ≠ id) :
          (p.finalizeWork id v (p.extractWork id w x).2).2.results k = x.results k := by
        rw [second, setAt_of_ne hk]
        exact first k hk
      have taken : (p.finalizeWork id v (p.extractWork id w x).2).2.results id = none := by
        rw [second, setAt_self]
      simp only
      generalize p.finalizeWork id v (p.extractWork id w x).2 = r at away taken ⊢
      rcases r with ⟨e | u, y⟩
      · exact ⟨away, fun w y h => by simp at h⟩
      · refine ⟨away, fun w z h => ?_⟩
        obtain ⟨-, rfl⟩ := Prod.mk.inj h
        exact taken

/-- A pipeline in which a plugin is installed does what the two phases do around the stage that the
plugin works with: the same code and diagnostics, or the same error, and the same build context. -/
theorem run_install (hs : ∀ f ∈ pre ++ d :: post, f.name ≠ stageName)
    (hpre : ∀ f ∈ pre, f.name ≠ p.downstream) (hd : d.name = p.downstream) :
    ∃ ps, p.install ((pre ++ d :: post).map stage) = .ok ps ∧ ∀ (id css : String) (x : BuildContext),
      ps.run id css x = p.twoPhases pre d post id css x ∧
      (∀ k ≠ id, (ps.run id css x).2.results k = x.results k) ∧
      ∀ w y, ps.run id css x = (.ok w, y) → y.results id = none := by
  refine ⟨_, install_eq hs hpre hd, fun id css x => ?_⟩
  rw [run_around]
  exact ⟨rfl, results_twoPhases⟩

/-- A stage that reports a remark and one that puts a line in front, around the compiler. -/
theorem run_install_compiler : ∃ (p : Plugin) (pre post : List Transform) (d : Transform)
    (ps : Pipeline) (w : Work) (y : BuildContext),
    p.install ((pre ++ d :: post).map stage) = .ok ps ∧
    ps.names = ["lint", "css-export", "css-post", "banner"] ∧
    ps.run "a.css?export&inline" ":export \x7b a: b; \x7d .x \x7b" .fresh = (.ok w, y) ∧
    w.code = "// b\nexport const a = \"b\";\nexport default \x7b\n\ta\n\x7d;\n" ∧
    w.diagnostics.map (·.code) = ["lint", "css_export::parse::unclosed-block"] ∧
    y.results "a.css?export&inline" = none := by
  let id := "a.css?export&inline"
  let css := ":export \x7b a: b; \x7d .x \x7b"
  let remark : Diagnostic := ⟨.warning, "lint", "one rule", none, none⟩
  let pre : List Transform := [⟨"lint", fun _ w => .ok (none, w.diagnostics ++ [remark])⟩]
  let d : Transform := ⟨Compiler.stageName, fun id w =>
    .ok (Compiler.compile? (Request.ofId id) w.code, w.diagnostics)⟩
  let post : List Transform :=
    [⟨"banner", fun _ w => .ok (some ("// b\n" ++ w.code), w.diagnostics)⟩]
  let p : Plugin := ⟨Options.default, Compiler.stageName⟩
  obtain ⟨ps, hps, h⟩ := @run_install p pre post d (by decide) (by decide) rfl
  obtain ⟨same, -, taken⟩ := h id css .fresh
  have names : ps.names = ["lint", "css-export", "css-post", "banner"] := by
    rw [install_eq (by decide) (by decide) rfl] at hps
    cases hps
    rfl
  have run : ∃ w, (p.twoPhases pre d post id css .fresh).1 = .ok w ∧
      w.code = "// b\nexport const a = \"b\";\nexport default \x7b\n\ta\n\x7d;\n" ∧
      w.diagnostics.map (·.code) = ["lint", "css_export::parse::unclosed-block"] := by
    refine ⟨⟨_, [remark, Export.Finding.unclosedBlock.diagnostic ⟨⟨22, 1, 23⟩, ⟨22, 1, 23⟩⟩]⟩, ?_,
      rfl, rfl⟩
    decide +kernel
  obtain ⟨w, hw, hcode, hd⟩ := run
  rw [← same] at hw
  have ran : ps.run id css .fresh = (.ok w, (ps.run id css .fresh).2) := Prod.ext hw rfl
  exact ⟨p, pre, post, d, ps, w, _, hps, names, ran, hcode, hd, taken w _ ran⟩

end Plugin

end StyleExports
