import StyleExports.Proofs.Build.Installation

namespace StyleExports

/-- What is done to a build context. Pipelines bring the stages of plugins with them. -/
inductive Action where
  | start
  | extract (id css : String)
  | finalize (id code : String)
  | take (id : String)
  | register (virtualId css : String)
  | run (ps : Pipeline) (id css : String)

inductive Write where
  /-- An extract for a request, and with it the stylesheet that is left unless it comes inline. -/
  | extracted (id : String) (e : Extract)
  | registered (virtualId css : String)
  deriving DecidableEq, Repr

def Write.css? (v : String) : Write → Option String
  | .extracted id e =>
    let r := Request.ofId id
    if r.isInline = false ∧ r.virtualId = v then some e.passthrough else none
  | .registered w css => if w = v then some css else none

/-- The stylesheet that was written last under a virtual id. -/
def latest? (v : String) (ws : List Write) : Option String := (ws.filterMap (Write.css? v)).getLast?

theorem latest?_concat (v : String) (ws : List Write) (w : Write) :
    latest? v (ws ++ [w]) = (w.css? v).or (latest? v ws) := by
  unfold latest?
  rw [List.filterMap_append, List.getLast?_append]
  cases hw : w.css? v with
  | none => simp [hw]
  | some css => simp [hw]

theorem latest?_isSome {v : String} {ws : List Write} {w : Write} (hw : w ∈ ws)
    (hv : (w.css? v).isSome) : (latest? v ws).isSome := by
  obtain ⟨css, hcss⟩ := Option.isSome_iff_exists.mp hv
  have written : css ∈ ws.filterMap (Write.css? v) := List.mem_filterMap.mpr ⟨w, hw, hcss⟩
  rw [latest?, List.getLast?_isSome]
  exact List.ne_nil_of_mem written

def Plugin.writes (p : Plugin) (id css : String) : List Write :=
  if p.inScope id then [.extracted id (p.extraction css).extract] else []

namespace Stage

def writes (id : String) : Stage → Work → List Write
  | .transformer _ _, _ => []
  | .extraction p, w => p.writes id w.code
  | .synthesis _ inner, w => inner.writes id w

/-- Whether every first phase in a stage is that of a certain plugin. -/
def IsFrom (p : Plugin) : Stage → Prop
  | .transformer _ _ => True
  | .extraction q => q = p
  | .synthesis _ inner => inner.IsFrom p

end Stage

namespace Pipeline

/-- What a pipeline writes when it works on a request, up to the first stage that fails. -/
def writes (id : String) : Pipeline → Work → BuildContext → List Write
  | [], _, _ => []
  | s :: ps, w, x =>
    s.writes id w ++
      match s.run id w x with
      | (.error _, _) => []
      | (.ok w, x) => writes id ps w x

def IsFrom (p : Plugin) (ps : Pipeline) : Prop := ∀ s ∈ ps, s.IsFrom p

end Pipeline

namespace Action

/-- The build context after an action by way of a plugin. -/
def act (p : Plugin) : Action → BuildContext → BuildContext
  | .start, _ => .fresh
  | .extract id css, x => (p.extract id css x).2
  | .finalize id code, x => (p.finalize id code x).2
  | .take id, x => x.drop id
  | .register v css, x => x.register v css
  | .run ps id css, x => (ps.run id css x).2

/-- What has been written since the last start, after an action. -/
def log (p : Plugin) : Action → List Write → BuildContext → List Write
  | .start, _, _ => []
  | .extract id css, ws, _ => ws ++ p.writes id css
  | .finalize _ _, ws, _ => ws
  | .take _, ws, _ => ws
  | .register v css, ws, _ => ws ++ [.registered v css]
  | .run ps id css, ws, x => ws ++ ps.writes id ⟨css, []⟩ x

/-- Whether the plugin alone may extract in a pipeline that is run. The stages of such a pipeline up to
any place make such a pipeline too, so what holds after every action holds between the stages. -/
def IsFrom (p : Plugin) : Action → Prop
  | .run ps _ _ => ps.IsFrom p
  | _ => True

end Action

def contextAfter (p : Plugin) : List Action → BuildContext → BuildContext
  | [], x => x
  | a :: as, x => contextAfter p as (a.act p x)

def writesAfter (p : Plugin) : List Action → List Write → BuildContext → List Write
  | [], ws, _ => ws
  | a :: as, ws, x => writesAfter p as (a.log p ws x) (a.act p x)

theorem contextAfter_append (p : Plugin) (as bs : List Action) (x : BuildContext) :
    contextAfter p (as ++ bs) x = contextAfter p bs (contextAfter p as x) := by
  induction as generalizing x with
  | nil => rfl
  | cons a as ih => exact ih (a.act p x)

theorem writesAfter_append (p : Plugin) (as bs : List Action) (ws : List Write) (x : BuildContext) :
    writesAfter p (as ++ bs) ws x = writesAfter p bs (writesAfter p as ws x) (contextAfter p as x) := by
  induction as generalizing ws x with
  | nil => rfl
  | cons a as ih => exact ih (a.log p ws x) (a.act p x)

theorem Plugin.context_finalize (p : Plugin) (id code : String) (x : BuildContext) :
    (p.finalize id code x).2 = x.drop id := by
  unfold finalize
  cases hr : x.results id with
  | none => exact (BuildContext.drop_of_none hr).symm
  | some e => rfl

theorem Plugin.stylesheets_remember (id v : String) (e : Extract) (x : BuildContext) :
    (remember id e x).stylesheets v =
      if (Request.ofId id).isInline = false ∧ (Request.ofId id).virtualId = v then some e.passthrough
      else x.stylesheets v := by
  unfold remember
  cases hi : (Request.ofId id).isInline with
  | true => simp [hi]
  | false =>
    by_cases hv : v = (Request.ofId id).virtualId
    · simp [hi, hv]
    · simp [hi, hv, Ne.symm hv]

/-- What is known of a build context from what was written to it. -/
structure Consistent (p : Plugin) (ws : List Write) (x : BuildContext) : Prop where
  waiting : ∀ id e, x.results id = some e → p.inScope id = true ∧ .extracted id e ∈ ws
  stylesheets : ∀ v, x.stylesheets v = latest? v ws

namespace Consistent

variable {p : Plugin} {ws : List Write} {x : BuildContext}

theorem fresh (p : Plugin) : Consistent p [] .fresh :=
  ⟨fun id e h => by simp [BuildContext.fresh] at h, fun v => rfl⟩

theorem drop (h : Consistent p ws x) (id : String) : Consistent p ws (x.drop id) := by
  refine ⟨fun k e hk => ?_, h.stylesheets⟩
  by_cases he : k = id
  · simp [he] at hk
  · rw [BuildContext.results_drop_of_ne he] at hk
    exact h.waiting k e hk

theorem register (h : Consistent p ws x) (v css : String) :
    Consistent p (ws ++ [.registered v css]) (x.register v css) := by
  refine ⟨fun k e hk => (h.waiting k e hk).imp_right fun hw => List.mem_append_left _ hw,
    fun u => ?_⟩
  rw [latest?_concat, ← h.stylesheets, Write.css?]
  by_cases hu : u = v
  · rw [hu, BuildContext.stylesheets_register_self, if_pos rfl, Option.some_or]
  · rw [BuildContext.stylesheets_register_of_ne hu, if_neg (Ne.symm hu), Option.none_or]

theorem remember (h : Consistent p ws x) {id : String} (hp : p.inScope id = true) (e : Extract) :
    Consistent p (ws ++ [.extracted id e]) (Plugin.remember id e x) := by
  refine ⟨fun k f hk => ?_, fun v => ?_⟩
  · by_cases he : k = id
    · subst he
      obtain rfl : e = f := by simpa [Plugin.remember] using hk
      exact ⟨hp, by simp⟩
    · rw [Plugin.results_remember he] at hk
      exact (h.waiting k f hk).imp_right fun hw => List.mem_append_left _ hw
  · rw [latest?_concat, ← h.stylesheets, Write.css?, Plugin.stylesheets_remember]
    split <;> rfl

theorem extract (h : Consistent p ws x) (id css : String) :
    Consistent p (ws ++ p.writes id css) (p.extract id css x).2 := by
  unfold Plugin.writes Plugin.extract
  cases hp : p.inScope id with
  | true => exact h.remember hp _
  | false => simpa using h

theorem finalize (h : Consistent p ws x) (q : Plugin) (id code : String) :
    Consistent p ws (q.finalize id code x).2 := by
  rw [Plugin.context_finalize]
  exact h.drop id

/-- What one stage preserves. The second phase of any plugin only takes extracts away. -/
theorem stage {s : Stage} (hs : s.IsFrom p) {id : String} (h : Consistent p ws x) (w : Work) :
    Consistent p (ws ++ s.writes id w) (s.run id w x).2 := by
  induction s with
  | transformer name f => simpa [Stage.writes, Stage.run] using h
  | extraction q =>
    obtain rfl : q = p := hs
    have phase : ((Stage.extraction q).run id w x).2 = (q.extract id w.code x).2 := by
      unfold Stage.run
      rcases q.extract id w.code x with ⟨_ | e, y⟩ <;> rfl
    rw [phase]
    exact h.extract id w.code
  | synthesis q inner ih =>
    have inside := ih hs
    unfold Stage.run Stage.writes
    generalize inner.run id w x = r at inside ⊢
    rcases r with ⟨e | v, y⟩
    · exact inside
    · simp only
      split
      · have taken := inside.finalize q id v.code
        generalize q.finalize id v.code y = r at taken ⊢
        rcases r with ⟨e | code, z⟩ <;> exact taken
      · exact inside

theorem pipeline {ps : Pipeline} (hs : ps.IsFrom p) {id : String} (h : Consistent p ws x) (w : Work) :
    Consistent p (ws ++ ps.writes id w x) (ps.runWork id w x).2 := by
  induction ps generalizing ws w x with
  | nil => simpa [Pipeline.writes, Pipeline.runWork] using h
  | cons s ps ih =>
    have first : Consistent p (ws ++ s.writes id w) (s.run id w x).2 :=
      h.stage (hs s List.mem_cons_self) w
    have others : Pipeline.IsFrom p ps := fun t ht => hs t (List.mem_cons_of_mem s ht)
    unfold Pipeline.runWork Pipeline.writes
    rw [← List.append_assoc]
    generalize s.run id w x = r at first ⊢
    rcases r with ⟨e | v, y⟩
    · simpa using first
    · exact ih others first v

theorem action {a : Action} (ha : a.IsFrom p) (h : Consistent p ws x) :
    Consistent p (a.log p ws x) (a.act p x) := by
  cases a with
  | start => exact .fresh p
  | extract id css => exact h.extract id css
  | finalize id code => exact h.finalize p id code
  | take id => exact h.drop id
  | register v css => exact h.register v css
  | run ps id css => exact h.pipeline ha ⟨css, []⟩

theorem actions {as : List Action} (ha : ∀ a ∈ as, a.IsFrom p) (h : Consistent p ws x) :
    Consistent p (writesAfter p as ws x) (contextAfter p as x) := by
  induction as generalizing ws x with
  | nil => exact h
  | cons a as ih =>
    exact ih (fun b hb => ha b (List.mem_cons_of_mem a hb)) (h.action (ha a List.mem_cons_self))

theorem isSome_stylesheets (h : Consistent p ws x) {id : String} {e : Extract}
    (hr : x.results id = some e) (hi : (Request.ofId id).isInline = false) :
    (x.stylesheets (Request.ofId id).virtualId).isSome := by
  rw [h.stylesheets]
  refine latest?_isSome (h.waiting id e hr).2 ?_
  simp [Write.css?, hi]

theorem results_eq_none (h : Consistent p ws x) {id : String}
    (hw : ∀ e, Write.extracted id e ∉ ws) : x.results id = none :=
  Option.eq_none_iff_forall_ne_some.mpr fun e he => hw e (h.waiting id e he).2

end Consistent

theorem Stage.isFrom_of_name {p : Plugin} {s : Stage} (h : s.name ≠ Plugin.stageName) :
    s.IsFrom p := by
  induction s with
  | transformer name f => trivial
  | extraction q => exact absurd rfl h
  | synthesis q inner ih => exact ih h

namespace Plugin

/-- A pipeline in which a plugin has been installed holds no first phase but its own. -/
theorem isFrom_installed (p : Plugin) {ps : Pipeline} (h : stageName ∉ ps.names) :
    (p.installed ps).IsFrom p := by
  have plain : Pipeline.IsFrom p ps := fun s hs =>
    Stage.isFrom_of_name fun he => h (he ▸ List.mem_map_of_mem hs)
  have wrapped (qs : Pipeline) (hq : qs.IsFrom p) : (qs.around p).IsFrom p := by
    induction qs with
    | nil => exact hq
    | cons s qs ih =>
      have head := hq s List.mem_cons_self
      have rest : Pipeline.IsFrom p qs := fun t ht => hq t (List.mem_cons_of_mem s ht)
      unfold Pipeline.around
      split
      · exact List.forall_mem_cons.mpr ⟨rfl, List.forall_mem_cons.mpr ⟨head, rest⟩⟩
      · exact List.forall_mem_cons.mpr ⟨head, ih rest⟩
  rcases installed_cases p ps with ⟨-, hq, -⟩ | ⟨-, hq, -⟩ | ⟨-, hq, -⟩ <;> rw [hq]
  · exact plain
  · exact plain
  · exact wrapped ps plain

/-- What a second phase that succeeds did: nothing, or it added the exports and, unless the module
comes inline, an import in front. -/
theorem finalize_cases {p : Plugin} {id code out : String} {x y : BuildContext}
    (h : p.finalize id code x = (.ok out, y)) :
    x.results id = none ∧ out = code ∧ y = x ∨
      ∃ e body, x.results id = some e ∧ y = x.drop id ∧
        synthesize e.tree code (p.policy (Request.ofId id)) (Request.ofId id).isInline
          p.options.sharedName = .ok body ∧
        out = if (Request.ofId id).isInline then body
          else importLine (Request.ofId id).virtualId ++ body := by
  unfold finalize at h
  cases hr : x.results id with
  | none =>
    simp only [hr, Prod.mk.injEq, Except.ok.injEq] at h
    exact .inl ⟨rfl, h.1.symm, h.2.symm⟩
  | some e =>
    simp only [hr, Prod.mk.injEq] at h
    obtain ⟨hf, rfl⟩ := h
    refine .inr ⟨e, ?_⟩
    unfold finished at hf
    cases hb : synthesize e.tree code (p.policy (Request.ofId id)) (Request.ofId id).isInline
        p.options.sharedName with
    | error f => simp [hb, bind, Except.bind] at hf
    | ok body =>
      simp only [hb, bind, Except.bind, pure, Except.pure, Except.ok.injEq] at hf
      exact ⟨body, rfl, rfl, rfl, hf.symm⟩

/-- Whatever was done to a build context by way of a plugin and of pipelines with its stages: an extract
waits only for a request in scope, whose stylesheet can be loaded unless it comes inline. So the import
in front of a module can be resolved, and loads what was passed through last under its id. After a
start nothing is resolved, and a module is left as it is until its request is extracted again. -/
theorem imports_resolve {p : Plugin} {as : List Action} (own : ∀ a ∈ as, a.IsFrom p) :
    (∀ ps : Pipeline, stageName ∉ ps.names → (p.installed ps).IsFrom p) ∧
    (∀ id e, (contextAfter p as .fresh).results id = some e →
      (Request.ofId id).isVirtual = false ∧ (Request.ofId id).isStylesheet = true ∧
      p.inScope id = true ∧ ((Request.ofId id).isInline = false →
        ((contextAfter p as .fresh).stylesheets (Request.ofId id).virtualId).isSome)) ∧
    (∀ v, load? v (contextAfter p as .fresh) = latest? v (writesAfter p as [] .fresh)) ∧
    (∀ id code out y, p.finalize id code (contextAfter p as .fresh) = (.ok out, y) →
      (contextAfter p as .fresh).results id = none ∧ out = code ∨
      (Request.ofId id).isInline = true ∨
      ∃ v css body, v = (Request.ofId id).virtualId ∧ out = importLine v ++ body ∧
        resolve? v y = some v ∧ load? v y = some css ∧
        latest? v (writesAfter p as [] .fresh) = some css) ∧
    (∀ v, resolve? v (contextAfter p (as ++ [.start]) .fresh) = none) ∧
    ∀ bs : List Action, (∀ b ∈ bs, b.IsFrom p) → ∀ id,
      (∀ e, .extracted id e ∉ writesAfter p (as ++ .start :: bs) [] .fresh) → ∀ code,
      p.finalize id code (contextAfter p (as ++ .start :: bs) .fresh) =
        (.ok code, contextAfter p (as ++ .start :: bs) .fresh) := by
  have now := (Consistent.fresh p).actions own
  refine ⟨fun ps => p.isFrom_installed, fun id e hr => ?_, now.stylesheets, ?_, fun v => ?_, ?_⟩
  · have scope := (now.waiting id e hr).1
    have parts := scope
    simp only [inScope, Bool.and_eq_true, Bool.not_eq_true'] at parts
    exact ⟨parts.1.2, parts.1.1, scope, now.isSome_stylesheets hr⟩
  · intro id code out y h
    rcases finalize_cases h with ⟨hr, ho, -⟩ | ⟨e, body, hr, hy, -, ho⟩
    · exact .inl ⟨hr, ho⟩
    · cases hi : (Request.ofId id).isInline with
      | true => exact .inr (.inl rfl)
      | false =>
        obtain ⟨css, hcss⟩ := Option.isSome_iff_exists.mp (now.isSome_stylesheets hr hi)
        have loads : load? (Request.ofId id).virtualId y = some css := by
          rw [hy]
          exact hcss
        refine .inr (.inr ⟨_, css, body, rfl, ?_, ?_, loads, ?_⟩)
        · rw [ho, if_neg (by simp [hi])]
        · exact congrArg (Option.map _) loads
        · rw [← now.stylesheets]
          exact hcss
  · rw [contextAfter_append]
    rfl
  · intro bs hb id hw code
    rw [contextAfter_append]
    rw [writesAfter_append] at hw
    have later := (Consistent.fresh p).actions hb
    have idle := later.results_eq_none hw
    change p.finalize id code (contextAfter p bs .fresh) = (.ok code, contextAfter p bs .fresh)
    simp only [finalize, idle]

/-- Two requests for one file, the second run through a pipeline: the import of the first loads what the
second passed through. -/
theorem imports_resolve_shared : ∃ (p : Plugin) (as : List Action) (out css : String)
    (y : BuildContext),
    (∀ a ∈ as, a.IsFrom p) ∧
    p.finalize "a.css?export" "export default 1;" (contextAfter p as .fresh) = (.ok out, y) ∧
    load? "virtual:css-export/a.css.css" y = some css ∧ css = ".y \x7b\x7d" ∧
    latest? "virtual:css-export/a.css.css" (writesAfter p as [] .fresh) = some css := by
  let p : Plugin := ⟨Options.default, Compiler.stageName⟩
  let as : List Action := [.register "virtual:css-export/a.css.css" ".w \x7b\x7d",
    .extract "a.css?export" ":export \x7b b: 1 \x7d .x \x7b\x7d",
    .run (p.installed [.compiler]) "a.css?x&export" ".y \x7b\x7d"]
  have own : ∀ a ∈ as, a.IsFrom p := by
    have alone : (p.installed [.compiler]).IsFrom p := p.isFrom_installed (by decide)
    simp [as, Action.IsFrom, alone]
  obtain ⟨out, hout⟩ : ∃ out, (p.finalize "a.css?export" "export default 1;"
      (contextAfter p as .fresh)).1 = .ok out :=
    ⟨"import \"virtual:css-export/a.css.css\";\nexport const b = \"1\";\n" ++
      "export default \x7b\n\tb\n\x7d;\n", by decide +kernel⟩
  have ran : p.finalize "a.css?export" "export default 1;" (contextAfter p as .fresh) =
      (.ok out, _) := Prod.ext hout rfl
  have waits : ((contextAfter p as .fresh).results "a.css?export").isSome = true := by decide +kernel
  have second : latest? "virtual:css-export/a.css.css" (writesAfter p as [] .fresh) =
      some ".y \x7b\x7d" := by decide +kernel
  obtain ⟨-, -, -, followed, -⟩ := imports_resolve own
  rcases followed _ _ _ _ ran with ⟨hr, -⟩ | hi | ⟨v, css, body, rfl, -, -, hload, hlatest⟩
  · simp [hr] at waits
  · exact absurd hi (by decide +kernel)
  · have same : (Request.ofId "a.css?export").virtualId = "virtual:css-export/a.css.css" := by
      decide +kernel
    rw [same] at hload hlatest
    exact ⟨p, as, out, css, _, own, ran, hload, Option.some.inj (hlatest.symm.trans second), hlatest⟩

end Plugin

end StyleExports
