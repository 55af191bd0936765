import StyleExports.Proofs.Build.TwoPhases

namespace StyleExports

namespace Stage

/-- Whether a stage is, or wraps, a first phase that handles a request. -/
def extracts (id : String) : Stage → Bool
  | .transformer _ _ => false
  | .extraction p => p.inScope id
  | .synthesis _ inner => inner.extracts id

def extractor? : Stage → Option Plugin
  | .transformer _ _ => none
  | .extraction p => some p
  | .synthesis _ inner => inner.extractor?

variable {κ : Type} [DecidableEq κ]

def runApart (home : Plugin → κ) (id : String) :
    Stage → Work → (κ → BuildContext) → Result Work × (κ → BuildContext)
  | .transformer _ f, w, x => (f id w, x)
  | .extraction p, w, x =>
    let (v, y) := p.extractWork id w (x (home p))
    (.ok v, Function.update x (home p) y)
  | .synthesis p inner, w, x =>
    match inner.runApart home id w x with
    | (.error e, x) => (.error e, x)
    | (.ok w, x) =>
      let (r, y) := p.finalizeWork id w (x (home p))
      (r, Function.update x (home p) y)

variable {p : Plugin} {s : Stage} {id : String} {home : Plugin → κ} {k : κ} {x : κ → BuildContext}

theorem extracts_eq (id : String) (s : Stage) : s.extracts id = s.extractor?.any (·.inScope id) := by
  induction s with
  | transformer name f => rfl
  | extraction p => rfl
  | synthesis p inner ih => exact ih

theorem name_of_extracts (h : s.extracts id = true) : s.name = Plugin.stageName := by
  induction s with
  | transformer name f => simp [extracts] at h
  | extraction p => rfl
  | synthesis p inner ih => exact ih h

/-- With one key for all plugins there is one build context. -/
theorem runApart_shared (s : Stage) (id : String) (w : Work) (x : BuildContext) :
    s.runApart (fun _ => ()) id w (fun _ => x) = ((s.run id w x).1, fun _ => (s.run id w x).2) := by
  have shared (x y : BuildContext) : Function.update (fun _ : Unit => x) () y = fun _ => y :=
    funext fun k => Function.update_self k y fun _ => x
  induction s generalizing w x with
  | transformer name f => rfl
  | extraction p =>
    rw [runApart, run_extraction]
    exact congrArg (Prod.mk _) (shared x _)
  | synthesis p inner ih =>
    rw [runApart, run_synthesis, ih]
    rcases inner.run id w x with ⟨e | v, y⟩
    · rfl
    · exact congrArg (Prod.mk _) (shared y _)

theorem extractWork_idle (hp : p.inScope id = false) (w : Work) (x : BuildContext) :
    p.extractWork id w x = (w, x) := by
  rw [Plugin.extractWork, Plugin.extract, hp]
  rfl

/-- A build context in which nothing waits for a request is left alone by a stage that extracts nothing
into it. -/
theorem runApart_idle (hs : ∀ q ∈ s.extractor?, home q = k → q.inScope id = false)
    (hx : (x k).results id = none) (w : Work) : (s.runApart home id w x).2 k = x k := by
  induction s with
  | transformer name f => rfl
  | extraction q =>
    rw [runApart]
    by_cases hk : home q = k
    · subst hk
      rw [extractWork_idle (hs q rfl rfl)]
      exact Function.update_self ..
    · exact Function.update_of_ne (Ne.symm hk) _ _
  | synthesis q inner ih =>
    have inside := ih hs
    rw [runApart]
    generalize inner.runApart home id w x = r at inside ⊢
    rcases r with ⟨e | v, y⟩ <;> dsimp only at inside ⊢
    · exact inside
    · by_cases hk : home q = k
      · subst hk
        rw [finalizeWork_idle (inside ▸ hx), Function.update_self]
        exact inside
      · rw [Function.update_of_ne (Ne.symm hk)]
        exact inside

theorem runApart_synthesis (hs : ∀ q ∈ s.extractor?, home q = home p → q.inScope id = false)
    (hx : (x (home p)).results id = none) (w : Work) :
    (synthesis p s).runApart home id w x = s.runApart home id w x := by
  have inside := runApart_idle hs hx w
  rw [runApart]
  generalize s.runApart home id w x = r at inside ⊢
  rcases r with ⟨e | v, y⟩ <;> dsimp only at inside ⊢
  rw [finalizeWork_idle (inside ▸ hx), Function.update_eq_self]

end Stage

namespace Pipeline

variable {κ : Type} [DecidableEq κ]

def runWorkApart (home : Plugin → κ) (id : String) :
    Pipeline → Work → (κ → BuildContext) → Result Work × (κ → BuildContext)
  | [], w, x => (.ok w, x)
  | s :: ps, w, x =>
    match s.runApart home id w x with
    | (.error e, x) => (.error e, x)
    | (.ok w, x) => runWorkApart home id ps w x

/-- A run of a pipeline in which each plugin has the build context at its key. -/
def runApart (home : Plugin → κ) (id code : String) (ps : Pipeline) (x : κ → BuildContext) :
    Result Work × (κ → BuildContext) :=
  ps.runWorkApart home id ⟨code, []⟩ x

variable {p : Plugin} {ps : Pipeline} {id : String} {home : Plugin → κ} {k : κ} {x : κ → BuildContext}

theorem position?_isSome {name : String} : (ps.position? name).isSome ↔ name ∈ ps.names := by
  rw [position?, List.findIdx?_isSome, List.any_eq_true, names, List.mem_map]
  simp only [beq_iff_eq]

theorem runWorkApart_shared (ps : Pipeline) (id : String) (w : Work) (x : BuildContext) :
    ps.runWorkApart (fun _ => ()) id w (fun _ => x) =
      ((ps.runWork id w x).1, fun _ => (ps.runWork id w x).2) := by
  induction ps generalizing w x with
  | nil => rfl
  | cons s ps ih =>
    rw [runWorkApart, runWork, Stage.runApart_shared]
    rcases s.run id w x with ⟨e | v, y⟩
    · rfl
    · exact ih v y

theorem runWorkApart_idle (hs : ∀ s ∈ ps, ∀ q ∈ s.extractor?, home q = k → q.inScope id = false)
    (hx : (x k).results id = none) (w : Work) : (ps.runWorkApart home id w x).2 k = x k := by
  induction ps generalizing w x with
  | nil => rfl
  | cons s ps ih =>
    have first := Stage.runApart_idle (hs s List.mem_cons_self) hx w
    rw [runWorkApart]
    generalize s.runApart home id w x = r at first ⊢
    rcases r with ⟨e | v, y⟩ <;> dsimp only at first ⊢
    · exact first
    · rw [ih (fun t ht => hs t (List.mem_cons_of_mem s ht)) (first ▸ hx) v]
      exact first

/-- The two phases do nothing for a request out of scope for which nothing waits, wherever they stand
in the pipeline. -/
theorem runWorkApart_around (hp : p.inScope id = false)
    (hs : ∀ s ∈ ps, ∀ q ∈ s.extractor?, home q = home p → q.inScope id = false)
    (hx : (x (home p)).results id = none) (w : Work) :
    (ps.around p).runWorkApart home id w x = ps.runWorkApart home id w x := by
  induction ps generalizing w x with
  | nil => rfl
  | cons s ps ih =>
    have head := hs s List.mem_cons_self
    unfold around
    split
    · have idle : (Stage.extraction p).runApart home id w x = (.ok w, x) := by
        rw [Stage.runApart, Stage.extractWork_idle hp]
        exact congrArg (Prod.mk _) (Function.update_eq_self _ x)
      simp only [runWorkApart, idle, Stage.runApart_synthesis head hx]
    · have first := Stage.runApart_idle head hx w
      rw [runWorkApart, runWorkApart]
      generalize s.runApart home id w x = r at first ⊢
      rcases r with ⟨e | v, y⟩ <;> dsimp only at first ⊢
      exact ih (fun t ht => hs t (List.mem_cons_of_mem s ht)) (first ▸ hx) v

section

variable {y : BuildContext}

theorem inScope_of_extracts (hs : ∀ s ∈ ps, s.extracts id = false) :
    ∀ s ∈ ps, ∀ q ∈ s.extractor?, q.inScope id = false := by
  intro s hs' q hq
  have none := hs s hs'
  rw [Stage.extracts_eq, Option.mem_def.mp hq] at none
  exact none

theorem context_runWork_idle (hs : ∀ s ∈ ps, s.extracts id = false) (hy : y.results id = none)
    (w : Work) : (ps.runWork id w y).2 = y := by
  have apart : (ps.runWorkApart (fun _ => ()) id w fun _ => y).2 () = y :=
    runWorkApart_idle (fun s hs' q hq _ => inScope_of_extracts hs s hs' q hq) hy w
  rwa [runWorkApart_shared] at apart

theorem runWork_around (hp : p.inScope id = false) (hs : ∀ s ∈ ps, s.extracts id = false)
    (hy : y.results id = none) (w : Work) : (ps.around p).runWork id w y = ps.runWork id w y := by
  have apart : (ps.around p).runWorkApart (fun _ => ()) id w (fun _ => y) =
      ps.runWorkApart (fun _ => ()) id w fun _ => y :=
    runWorkApart_around hp (fun s hs' q hq _ => inScope_of_extracts hs s hs' q hq) hy w
  rw [runWorkApart_shared, runWorkApart_shared] at apart
  obtain ⟨same, contexts⟩ := Prod.mk.inj apart
  exact Prod.ext same (congrFun contexts ())

end

/-- One stage is put before the first that the plugin works with; the others keep their names. -/
theorem names_around (h : p.downstream ∈ ps.names) : ∃ before after : List String,
    ps.names = before ++ p.downstream :: after ∧ p.downstream ∉ before ∧
      (ps.around p).names = before ++ Plugin.stageName :: p.downstream :: after := by
  induction ps with
  | nil => simp [names] at h
  | cons s ps ih =>
    by_cases hs : s.name = p.downstream
    · refine ⟨[], names ps, ?_, by simp, ?_⟩
      · simp [names, hs]
      · rw [around, if_pos hs]
        simp [names, Stage.name, hs]
    · have later : p.downstream ∈ names ps := by
        rcases List.mem_cons.mp h with he | h
        · exact absurd he.symm hs
        · exact h
      obtain ⟨before, after, hps, hn, ha⟩ := ih later
      refine ⟨s.name :: before, after, ?_, ?_, ?_⟩
      · exact congrArg (s.name :: ·) hps
      · simp [hn, Ne.symm hs]
      · rw [around, if_neg hs]
        exact congrArg (s.name :: ·) ha

end Pipeline

namespace Plugin

variable {p : Plugin} {ps : Pipeline}

theorem install_of_installed (h : stageName ∈ ps.names) : p.install ps = .ok ps :=
  if_pos (Pipeline.position?_isSome.mpr h)

theorem install_of_free (h : stageName ∉ ps.names) : p.install ps =
    if (ps.position? p.downstream).isSome then .ok (ps.around p)
    else .error (.noStage p.downstream) :=
  if_neg fun hs => h (Pipeline.position?_isSome.mp hs)

theorem install_eq_error (h : stageName ∉ ps.names) (hd : p.downstream ∉ ps.names) :
    p.install ps = .error (.noStage p.downstream) := by
  rw [install_of_free h, if_neg fun hs => hd (Pipeline.position?_isSome.mp hs)]

theorem install_eq_around (h : stageName ∉ ps.names) (hd : p.downstream ∈ ps.names) :
    p.install ps = .ok (ps.around p) := by
  rw [install_of_free h, if_pos (Pipeline.position?_isSome.mpr hd)]

def installed (p : Plugin) (ps : Pipeline) : Pipeline :=
  match p.install ps with
  | .ok qs => qs
  | .error _ => ps

/-- Without an installed plugin the first phase is put at the number of the stage that the plugin
works with, and then the first stage of that name, which is that stage, is wrapped. -/
structure Surrounds (p : Plugin) (ps qs : Pipeline) : Prop where
  free : stageName ∉ ps.names
  wrapped : ∃ n, ps.position? p.downstream = some n ∧
    qs = (ps.insertAt n (.extraction p)).wrap p.downstream (.synthesis p)
  named : ∃ before after : List String, ps.names = before ++ p.downstream :: after ∧
    p.downstream ∉ before ∧ qs.names = before ++ stageName :: p.downstream :: after

theorem surrounds_around (h : stageName ∉ ps.names) (hd : p.downstream ∈ ps.names) :
    Surrounds p ps (ps.around p) := by
  have other : p.downstream ≠ stageName := fun he => h (he ▸ hd)
  obtain ⟨n, hn⟩ := Option.isSome_iff_exists.mp (Pipeline.position?_isSome.mpr hd)
  exact ⟨h, ⟨n, hn, Pipeline.around_eq_wrap other hn⟩, Pipeline.names_around hd⟩

theorem installed_cases (p : Plugin) (ps : Pipeline) :
    p.install ps = .error (.noStage p.downstream) ∧ p.installed ps = ps ∧ stageName ∉ ps.names ∧
        p.downstream ∉ ps.names ∨
      p.install ps = .ok ps ∧ p.installed ps = ps ∧ stageName ∈ ps.names ∨
      p.install ps = .ok (ps.around p) ∧ p.installed ps = ps.around p ∧
        Surrounds p ps (ps.around p) := by
  unfold installed
  by_cases h : stageName ∈ ps.names
  · rw [install_of_installed h]
    exact .inr (.inl ⟨rfl, rfl, h⟩)
  by_cases hd : p.downstream ∈ ps.names
  · rw [install_eq_around h hd]
    exact .inr (.inr ⟨rfl, rfl, surrounds_around h hd⟩)
  · rw [install_eq_error h hd]
    exact .inl ⟨rfl, rfl, h, hd⟩

theorem Surrounds.installed {qs : Pipeline} (h : Surrounds p ps qs) : stageName ∈ qs.names := by
  obtain ⟨before, after, -, -, hq⟩ := h.named
  rw [hq]
  simp

theorem extracts_of_free (h : stageName ∉ ps.names) (id : String) :
    ∀ s ∈ ps, s.extracts id = false := by
  intro s hs
  by_contra he
  have named := Stage.name_of_extracts (by simpa using he)
  exact h (List.mem_map.mpr ⟨s, hs, named⟩)

/-- With a build context for each plugin, a request out of scope for which nothing waits is treated as before,
and the context of the plugin is left alone. -/
theorem runApart_installed {κ : Type} [DecidableEq κ] {home : Plugin → κ} (hh : home.Injective)
    {id : String} {x : κ → BuildContext} (hp : p.inScope id = false)
    (hx : (x (home p)).results id = none) (css : String) :
    (p.installed ps).runApart home id css x = ps.runApart home id css x ∧
      ((p.installed ps).runApart home id css x).2 (home p) = x (home p) := by
  have silent : ∀ s ∈ ps, ∀ q ∈ s.extractor?, home q = home p → q.inScope id = false := by
    intro s _ q _ hq
    rw [hh hq, hp]
  have idle : (ps.runApart home id css x).2 (home p) = x (home p) :=
    Pipeline.runWorkApart_idle silent hx _
  have same : (ps.around p).runApart home id css x = ps.runApart home id css x :=
    Pipeline.runWorkApart_around hp silent hx _
  rcases installed_cases p ps with ⟨-, hq, -⟩ | ⟨-, hq, -⟩ | ⟨-, hq, -⟩
  · rw [hq]
    exact ⟨rfl, idle⟩
  · rw [hq]
    exact ⟨rfl, idle⟩
  · rw [hq, same]
    exact ⟨rfl, idle⟩

/-- Installing a plugin fails exactly if none is installed and the stage that it works with is missing,
and then changes nothing. Otherwise every further plugin finds one installed, and the pipeline is as
it was or has gained the first phase directly before the first stage that the plugin works with. A
request out of scope for which nothing waits is treated as before; the build context is not touched
then, unless a plugin that was installed already handles the request. If each plugin has a build context of
its own, that of the plugin is not touched in any case. -/
theorem install_transparent (p : Plugin) (ps : Pipeline) :
    (p.install ps = .error (.noStage p.downstream) ↔
      stageName ∉ ps.names ∧ p.downstream ∉ ps.names) ∧
    (stageName ∉ ps.names ∧ p.downstream ∉ ps.names → p.installed ps = ps) ∧
    (stageName ∈ ps.names ∨ p.downstream ∈ ps.names →
      p.install ps = .ok (p.installed ps) ∧
      (∀ q : Plugin, q.install (p.installed ps) = .ok (p.installed ps)) ∧
      (stageName ∈ ps.names ∧ p.installed ps = ps ∨ Surrounds p ps (p.installed ps))) ∧
    (∀ (id css : String) (x : BuildContext), p.inScope id = false → x.results id = none →
      (p.installed ps).run id css x = ps.run id css x ∧
      (stageName ∉ ps.names ∨ (∀ s ∈ ps, s.extracts id = false) →
        ((p.installed ps).run id css x).2 = x)) ∧
    ∀ (κ : Type) [DecidableEq κ] (home : Plugin → κ), home.Injective →
      ∀ (id css : String) (x : κ → BuildContext), p.inScope id = false →
        (x (home p)).results id = none →
          (p.installed ps).runApart home id css x = ps.runApart home id css x ∧
          ((p.installed ps).runApart home id css x).2 (home p) = x (home p) := by
  have untouched (id css : String) (x : BuildContext) (hx : x.results id = none)
      (h : stageName ∉ ps.names ∨ ∀ s ∈ ps, s.extracts id = false) : (ps.run id css x).2 = x :=
    Pipeline.context_runWork_idle (h.elim (extracts_of_free · id) fun hs => hs) hx ⟨css, []⟩
  have apart (κ : Type) [DecidableEq κ] (home : Plugin → κ) (hh : home.Injective) (id css : String)
      (x : κ → BuildContext) (hp : p.inScope id = false) (hx : (x (home p)).results id = none) :
      (p.installed ps).runApart home id css x = ps.runApart home id css x ∧
        ((p.installed ps).runApart home id css x).2 (home p) = x (home p) :=
    runApart_installed hh hp hx css
  rcases installed_cases p ps with ⟨hi, hq, h, hd⟩ | ⟨hi, hq, h⟩ | ⟨hi, hq, hs⟩
  · rw [hq] at apart
    rw [hi, hq]
    refine ⟨iff_of_true rfl ⟨h, hd⟩, fun _ => rfl, fun hn => absurd hn (by simp [h, hd]), ?_, apart⟩
    exact fun id css x _ hx => ⟨rfl, untouched id css x hx⟩
  · rw [hq] at apart
    rw [hi, hq]
    refine ⟨by simp [h], fun hn => absurd h hn.1, fun _ => ⟨rfl, ?_, .inl ⟨h, rfl⟩⟩, ?_, apart⟩
    · exact fun q => install_of_installed h
    · exact fun id css x _ hx => ⟨rfl, untouched id css x hx⟩
  · rw [hq] at apart
    rw [hi, hq]
    have found : p.downstream ∈ ps.names := by
      obtain ⟨before, after, hn, -, -⟩ := hs.named
      simp [hn]
    refine ⟨by simp [found], fun hn => absurd found hn.2, fun _ => ⟨rfl, ?_, .inr hs⟩, ?_, apart⟩
    · exact fun q => install_of_installed hs.installed
    · intro id css x hp hx
      have same : (ps.around p).run id css x = ps.run id css x :=
        Pipeline.runWork_around hp (extracts_of_free hs.free id) hx ⟨css, []⟩
      rw [same]
      exact ⟨rfl, untouched id css x hx⟩

/-- Between two stages of one name and behind a remark, the request of a file that shares nothing. -/
theorem install_transparent_repeated : ∃ (p : Plugin) (ps : Pipeline),
    p.install ps = .ok (p.installed ps) ∧
    (p.installed ps).names = ["lint", "css-export", "css-post", "css-post"] ∧
    p.inScope "a.css" = false ∧
    (p.installed ps).run "a.css" ".x \x7b\x7d" .fresh = ps.run "a.css" ".x \x7b\x7d" .fresh ∧
    ((p.installed ps).run "a.css" ".x \x7b\x7d" .fresh).2 = .fresh ∧
    ∃ (κ : Type) (_ : DecidableEq κ) (home : Plugin → κ) (x : κ → BuildContext), home.Injective ∧
      (x (home p)).results "a.css" = none ∧
      ((p.installed ps).runApart home "a.css" ".x \x7b\x7d" x).2 (home p) = x (home p) := by
  let p : Plugin := ⟨Options.default, Compiler.stageName⟩
  let lint : Stage := .transformer "lint" fun _ w =>
    .ok { w with diagnostics := w.diagnostics ++ [⟨.warning, "lint", "one rule", none, none⟩] }
  let ps : Pipeline := [lint, .compiler, .compiler]
  have free : stageName ∉ ps.names := by decide
  have out : p.inScope "a.css" = false := by decide +kernel
  obtain ⟨-, -, success, transparent, apart⟩ := install_transparent p ps
  obtain ⟨hi, -, -⟩ := success (.inr (by decide))
  obtain ⟨same, context⟩ := transparent "a.css" ".x \x7b\x7d" .fresh out rfl
  let decEq : DecidableEq Plugin := Classical.decEq Plugin
  obtain ⟨-, own⟩ := apart Plugin (fun q => q) (fun _ _ h => h) "a.css" ".x \x7b\x7d" (fun _ => .fresh) out rfl
  exact ⟨p, ps, hi, by decide, out, same, context (.inl free), Plugin, decEq, fun q => q, fun _ => .fresh,
    fun _ _ h => h, rfl, own⟩

/-- Beside a plugin that was installed first and handles the request, a second one that does not handle
it is installed, and the build context changes. -/
theorem not_unchanged_beside : ¬∀ (p : Plugin) (ps qs : Pipeline) (id css : String)
    (x : BuildContext), p.install ps = .ok qs → p.inScope id = false → x.results id = none →
    (qs.run id css x).2 = x := by
  intro h
  let first : Plugin := ⟨{ Options.default with accepts := fun _ => true }, Compiler.stageName⟩
  let ps : Pipeline := Pipeline.around first [.compiler]
  have context := h ⟨Options.default, Compiler.stageName⟩ ps ps "a.css" ".x \x7b\x7d" .fresh rfl
    (by decide +kernel) rfl
  have registered : ((Pipeline.run "a.css" ".x \x7b\x7d" ps .fresh).2.stylesheets
      "virtual:css-export/a.css.css").isSome = true := by decide +kernel
  rw [context] at registered
  exact absurd registered (by decide)

end Plugin

end StyleExports
