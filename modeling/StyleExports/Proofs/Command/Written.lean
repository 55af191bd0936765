import StyleExports.Proofs.Build.Lifecycle
import StyleExports.Proofs.Build.NameClash
import StyleExports.Proofs.Command.Below
import StyleExports.Proofs.Command.ShownRequest
import StyleExports.Proofs.Discovery

namespace StyleExports

open Text Disk

namespace Plugin

/-- A run with the compiler leaves its code behind its own import, and keeps what is passed on. -/
theorem run_compiler_eq_ok {p : Plugin} {id css : String} {x y : BuildContext} {w : Work}
    (hs : p.inScope id = true)
    (h : Pipeline.run id css [.extraction p, .synthesis p .compiler] x = (.ok w, y)) :
    (∃ code, w.code = if (Request.ofId id).isInline then code
      else importLine (Request.ofId id).virtualId ++ code) ∧
    ((Request.ofId id).isInline = false → load? (Request.ofId id).virtualId y =
      some (Extraction.ofText p.options.casing css.toList).extract.passthrough) := by
  rw [run_compiler_eq hs] at h
  obtain ⟨done, rfl⟩ := Prod.mk.inj h
  constructor
  · unfold finished at done
    simp only at done
    generalize Compiler.compiled _ _ = compiled at done
    cases hc : synthesize (p.extraction css).extract.tree compiled (p.policy (Request.ofId id))
      (Request.ofId id).isInline p.options.sharedName with
    | error e => rw [hc] at done; cases done
    | ok code =>
      rw [hc] at done
      exact ⟨code, (congrArg Work.code (Except.ok.inj done)).symm⟩
  · intro hi
    rw [load?, BuildContext.stylesheets_drop, stylesheets_remember, if_pos ⟨hi, rfl⟩]
    rfl

/-- The literal of an import line is the first text that reads like it. -/
theorem exchange_importLine (u v code : String) :
    String.ofList (exchangeFirst (Quoted.literal v).toList (Quoted.literal u).toList
      (importLine v ++ code).toList) = importLine u ++ code := by
  have line (name : String) : (importLine name ++ code).toList =
      "import ".toList ++ ((Quoted.literal name).toList ++ (";\n".toList ++ code.toList)) := by
    simp [importLine, String.toList_append]
  have cut : cutText? (Quoted.literal v).toList (importLine v ++ code).toList =
      some ("import ".toList, ";\n".toList ++ code.toList) := by
    have quote : '"' ∉ "import ".toList := by decide
    have literal : (Quoted.literal v).toList = '"' :: Quoted.encodeBody v.toList :=
      String.toList_ofList
    rw [line, literal]
    exact cutText?_append quote
  rw [exchangeFirst, cut]
  simp only
  rw [List.append_assoc, ← line, String.ofList_toList]

end Plugin

theorem Disk.shown_congr {d e : Disk} (h : e.here = d.here) (p : Path) : e.shown p = d.shown p := by
  rw [shown, shown, h]

namespace Command

/-- Whatever a build discovers is a stylesheet by its extension, and is found on a walk or named. -/
theorem BuildRequest.of_mem_discover {r : BuildRequest} {d : Disk} {c : Config} {f : Path}
    (h : f ∈ (r.discover d c).stylesheets) :
    Discovery.isStylesheet f = true ∧ ((∃ p, f ∈ d.walk p) ∨ d.hasFile f = true) := by
  have walked {p : Path} (h : f ∈ Discovery.inDirectory d c p) :
      Discovery.isStylesheet f = true ∧ ((∃ p, f ∈ d.walk p) ∨ d.hasFile f = true) := by
    obtain ⟨walk, -, stylesheet⟩ := Discovery.mem_inDirectory.mp h
    exact ⟨stylesheet, .inl ⟨p, walk⟩⟩
  unfold discover at h
  split at h
  · rcases Discovery.mem_foldl_join h with h | ⟨l, hl, hf⟩
    · simp at h
    · obtain ⟨s, -, rfl⟩ := List.mem_map.mp hl
      exact walked hf
  · rcases Discovery.mem_foldl_join h with h | ⟨l, hl, hf⟩
    · simp at h
    · obtain ⟨p, -, rfl⟩ := List.mem_map.mp hl
      unfold Discovery.atPath at hf
      split at hf
      · exact walked hf
      split at hf
      · rename_i both
        rw [Bool.and_eq_true] at both
        obtain rfl := List.mem_singleton.mp hf
        exact ⟨both.2, .inr both.1⟩
      · simp at hf

namespace Action

variable {α β : Type} {s t : State}

theorem bind_eq_ok {x : Action α} {f : α → Action β} {b : β} (h : (x >>= f) s = (.ok b, t)) :
    ∃ a u, x s = (.ok a, u) ∧ f a u = (.ok b, t) := by
  rw [bind_run] at h
  cases hx : x s with
  | mk r u =>
    rw [hx] at h
    cases r with
    | error e => cases h
    | ok a => exact ⟨a, u, rfl, h⟩

theorem read_eq_ok {use : FileUse} {p : Path} {source : String}
    (h : read use p s = (.ok source, t)) : s.disk.read p = .ok source ∧ t = s := by
  simp only [read, ExceptT.mk] at h
  cases hr : s.disk.read p with
  | error e => rw [hr] at h; cases h
  | ok text =>
    rw [hr] at h
    obtain ⟨same, rfl⟩ := Prod.mk.inj h
    exact ⟨congrArg Except.ok (Except.ok.inj same), rfl⟩

theorem write_eq_ok {use : FileUse} {p : Path} {content : String} {u : Unit}
    (h : write use p content s = (.ok u, t)) : s.disk.write p content = .ok t.disk := by
  simp only [write, change, ExceptT.mk] at h
  cases hw : s.disk.write p content with
  | error e => rw [hw] at h; cases h
  | ok e =>
    rw [hw] at h
    obtain ⟨-, rfl⟩ := Prod.mk.inj h
    rfl

end Action

open Planned

namespace Builder

def relinked (f : Path) (virtualId code : String) : String :=
  String.ofList (exchangeFirst (Quoted.literal virtualId).toList
    (Quoted.literal ("./" ++ String.ofList (outputName f ++ ".export.css".toList))).toList
    code.toList)

/-- A stylesheet of one file system has been built, and its outputs are in another one. -/
def IsBuilt (b : Builder) (root : Path) (d e : Disk) (f : Path) : Prop :=
  let id := requestId (d.shown f) b.inline
  let virtualId := (Request.ofId id).virtualId
  ∃ source w x y, d.entryAt? (d.landing f) = some (.file source) ∧
    (∀ n, f.fileName? = some n → f.parts.getLast? = some n) ∧
    b.pipeline.run id source x = (.ok w, y) ∧
    e.entryAt? (outputPlace root (d.landing b.output) f ".js".toList) =
      some (.file (if b.inline then w.code else relinked f virtualId w.code)) ∧
    (b.inline = false →
      e.entryAt? (outputPlace root (d.landing b.output) f ".export.css".toList) =
        some (.file ((Plugin.load? virtualId y).getD "")))

section

variable {b : Builder} {root f : Path} {d e g : Disk} {P : Place → Prop}

theorem IsBuilt.before (h : b.IsBuilt root e g f) (changes : ChangesAt P d e)
    (own : ¬P (d.landing f)) : b.IsBuilt root d g f := by
  obtain ⟨source, w, x, y, file, rest⟩ := h
  rw [landing_congr changes.here] at file
  rw [shown_congr changes.here, landing_congr changes.here b.output] at rest
  exact ⟨source, w, x, y, changes.file_before own file, rest⟩

theorem IsBuilt.after (h : b.IsBuilt root d e f) (changes : ChangesAt P e g)
    (apart : ∀ end' ∈ endings b.inline, ¬P (outputPlace root (d.landing b.output) f end')) :
    b.IsBuilt root d g f := by
  obtain ⟨source, w, x, y, file, last, run, js, css⟩ := h
  refine ⟨source, w, x, y, file, last, run, ?_, fun hi => ?_⟩
  · exact changes.file (apart _ (mem_endings.mpr (.inl rfl))) js
  · exact changes.file (apart _ (mem_endings.mpr (.inr ⟨hi, rfl⟩))) (css hi)

end

variable {b : Builder} {root : Path} {x y : BuildContext} {ds : Diagnostics} {s t : State}

theorem write_outputs_eq_ok {f : Path} (hf : IsPlaced root f) {id : String} {w : Work}
    (h : ((if b.inline then pure w.code
        else writePassed id (outputName f) ((ofFile root f).directory b.output) y w.code) >>=
      fun code => do
        Action.write .writeOutput
          (((ofFile root f).directory b.output).join ⟨outputName f ++ ".js".toList⟩) code
        return (w.diagnostics, y)) s = (.ok (ds, x), t)) : x = y ∧
    t.disk.entryAt? (outputPlace root (s.disk.landing b.output) f ".js".toList) =
      some (.file (if b.inline then w.code else relinked f (Request.ofId id).virtualId w.code)) ∧
    (b.inline = false →
      t.disk.entryAt? (outputPlace root (s.disk.landing b.output) f ".export.css".toList) =
        some (.file ((Plugin.load? (Request.ofId id).virtualId y).getD ""))) := by
  have place {e : List Char} (he : e ∈ endings b.inline) (d : Disk) :=
    landing_of_mem_endings hf d b.output he
  have js := place (mem_endings.mpr (.inl rfl))
  obtain ⟨code, s₁, passed, h₁⟩ := Action.bind_eq_ok h
  obtain ⟨u, s₂, wrote, h₂⟩ := Action.bind_eq_ok h₁
  obtain ⟨done, rfl⟩ := Prod.mk.inj h₂
  have module := changesAt_write (Action.write_eq_ok wrote)
  rw [js] at module
  refine ⟨(Prod.mk.inj (Except.ok.inj done)).2.symm, ?_⟩
  split at passed
  · rename_i hi
    obtain ⟨same, rfl⟩ := Prod.mk.inj passed
    rw [if_pos hi, Except.ok.inj same]
    exact ⟨module.2, fun apart => by simp [hi] at apart⟩
  · rename_i hi
    have css := place (mem_endings.mpr (.inr ⟨by simpa using hi, rfl⟩))
    obtain ⟨u', s₃, wrote', h₃⟩ := Action.bind_eq_ok passed
    obtain ⟨same, rfl⟩ := Prod.mk.inj h₃
    have beside := changesAt_write (Action.write_eq_ok wrote')
    rw [css] at beside
    rw [landing_congr beside.1.here] at module
    obtain rfl := Except.ok.inj same
    rw [if_neg hi]
    exact ⟨module.2, fun _ => module.1.file (outputPlace_js_ne_css _ _ _ _).symm beside.2⟩

/-- A stylesheet whose build ends well is built. -/
theorem buildFile_eq_ok {f : Path} (hf : IsPlaced root f)
    (h : b.buildFile (ofFile root f) x s = (.ok (ds, y), t)) :
    b.IsBuilt root s.disk t.disk f := by
  unfold buildFile at h
  dsimp only at h
  obtain ⟨source, s₁, first, h₁⟩ := Action.bind_eq_ok h
  obtain ⟨found, same⟩ := Action.read_eq_ok first
  rw [same] at h₁
  obtain ⟨shown, s₂, second, h₂⟩ := Action.bind_eq_ok h₁
  obtain ⟨u, s₃, third, h₃⟩ := Action.bind_eq_ok h₂
  obtain ⟨w, s₄, fourth, h₄⟩ := Action.bind_eq_ok h₃
  obtain ⟨u', s₅, fifth, h₅⟩ := Action.bind_eq_ok h₄
  obtain ⟨u'', s₆, sixth, h₆⟩ := Action.bind_eq_ok h₅
  have quiet : s₅.disk = s.disk := by
    have report : s₄.disk = s₅.disk := congrArg (·.2.disk) fifth
    have result : s₃.disk = s₄.disk := congrArg (·.2.disk) fourth
    have say : s₂.disk = s₃.disk := congrArg (·.2.disk) third
    have ask : s.disk = s₂.disk := congrArg (·.2.disk) second
    rw [← report, ← result, ← say, ← ask]
  have made : ChangesAt (fun _ => False) s.disk s₆.disk := by
    rw [← quiet]
    have directories : ChangesAt (fun _ => False) s₅.disk
        (Action.makeOutput ((ofFile root f).directory b.output) s₅).2.disk :=
      Action.touches_makeOutput _ s₅ rfl
    exact (congrArg (·.2.disk) sixth) ▸ directories
  obtain rfl := Except.ok.inj (Prod.mk.inj second).1
  have joined {α β : Type} (m n : Action α) (k : α → Action β) :
      (if b.inline then m >>= k else n >>= k) = ((if b.inline then m else n) >>= k) := by
    split <;> rfl
  rw [joined] at h₆
  obtain ⟨rfl, js, css⟩ := write_outputs_eq_ok hf h₆
  rw [landing_congr made.here] at js css
  exact ⟨source, w, x, _, Disk.read_eq_ok found, fun _ => last_of_read found,
    Prod.ext (Prod.mk.inj fourth).1 rfl, js, css⟩

/-- Over a run every stylesheet is built, if no output is one of them and none is written twice. -/
theorem buildAll_eq_ok {fs : List Path} (placed : ∀ f ∈ fs, IsPlaced root f)
    (apart : fs.Pairwise fun f g => ∀ e ∈ endings b.inline, ∀ e' ∈ endings b.inline,
      outputPlace root (s.disk.landing b.output) f e ≠ outputPlace root (s.disk.landing b.output) g e')
    (own : ∀ f ∈ fs, ¬IsOutput root (s.disk.landing b.output) b.inline fs (s.disk.landing f))
    (h : b.buildAll (fs.map (ofFile root)) x s = (.ok ds, t)) :
    ∀ f ∈ fs, b.IsBuilt root s.disk t.disk f := by
  induction fs generalizing x ds s with
  | nil => exact fun f hf => absurd hf List.not_mem_nil
  | cons f fs ih =>
    obtain ⟨⟨found, y⟩, u, first, h₁⟩ := Action.bind_eq_ok h
    obtain ⟨more, v, rest, h₂⟩ := Action.bind_eq_ok h₁
    obtain ⟨-, rfl⟩ := Prod.mk.inj h₂
    have here := placed f List.mem_cons_self
    have there : ∀ g ∈ fs, IsPlaced root g := fun g hg => placed g (List.mem_cons_of_mem _ hg)
    have changes := touches_buildFile b here x s rfl
    rw [first] at changes
    change ChangesAt (IsOutput root (s.disk.landing b.output) _ _) _ u.disk at changes
    have out := landing_congr changes.here b.output
    have later := touches_buildAll b there y u rfl
    rw [rest] at later
    change ChangesAt (IsOutput root (u.disk.landing b.output) _ _) _ v.disk at later
    rw [out] at later
    intro g hg
    rcases List.mem_cons.mp hg with rfl | hg
    · refine (buildFile_eq_ok here first).after later fun e he => ?_
      rintro ⟨k, hk, e', he', same⟩
      exact List.rel_of_pairwise_cons apart hk e he e' he' same
    · have built := ih there (by rw [out]; exact List.Pairwise.of_cons apart) (by
        intro k hk
        rw [out, landing_congr changes.here]
        exact fun hw => own k (List.mem_cons_of_mem _ hk)
          (hw.mono fun _ => List.mem_cons_of_mem _)) rest g hg
      exact built.before changes fun hw => own g (List.mem_cons_of_mem _ hg) (hw.mono (by simp))

end Builder

namespace Planned

theorem mem_tail_components {p : Path} {c : Component} (h : c ∈ p.components.tail) :
    c ≠ .root ∧ c ≠ .here := by
  obtain ⟨s, ps, hp⟩ := List.exists_cons_of_ne_nil p.parts_ne_nil
  have behind : c ∈ ps.filterMap Path.component? := by
    rw [Path.components_of_parts hp] at h
    cases hf : Path.firstComponent? s (!ps.isEmpty) with
    | some d => simpa [hf] using h
    | none =>
      rw [hf] at h
      exact List.mem_of_mem_tail h
  obtain ⟨t, -, ht⟩ := List.mem_filterMap.mp behind
  constructor <;> rintro rfl
  · exact Path.component?_ne.1 ht
  · exact Path.component?_ne.2 ht

/-- A stylesheet whose path has no two dots is placed, if the root says something or the path begins
with a name. -/
theorem isPlaced_of_plain {root f : Path} (plain : .up ∉ f.components)
    (front : root.chars ≠ [] ∨ ∃ n cs, f.components = .name n :: cs)
    (dot : outputName f ≠ ['.']) (up : outputName f ≠ ['.', '.']) : IsPlaced root f := by
  have named {c : Component} (hc : c ∈ f.components) (front : c ≠ .root ∧ c ≠ .here) :
      ∃ s, c = .name s := by
    cases c with
    | root => exact absurd rfl front.1
    | here => exact absurd rfl front.2
    | up => exact absurd hc plain
    | name s => exact ⟨s, rfl⟩
  refine ⟨fun c hc => ?_, dot, up⟩
  unfold between at hc
  split at hc
  · have behind := List.dropLast_subset _ hc
    cases hr : root.components with
    | cons d ds =>
      have tail : c ∈ f.components.tail := by
        rw [← List.drop_one]
        exact List.drop_subset_drop_left _ (by simp [hr]) behind
      exact named (List.mem_of_mem_tail tail) (mem_tail_components tail)
    | nil =>
      rcases front with root | ⟨n, cs, hf⟩
      · exact absurd (Path.components_eq_nil.mp hr) root
      · have mem := List.drop_subset _ _ behind
        rw [hf] at mem
        rcases List.mem_cons.mp mem with rfl | mem
        · exact ⟨n, rfl⟩
        · have tail : c ∈ f.components.tail := by rwa [hf]
          exact named (List.mem_of_mem_tail tail) (mem_tail_components tail)
  · simp at hc

end Planned

namespace BuildRequest

theorem run_eq_ok {r : BuildRequest} {s t : State} {c : Config}
    (hc : (loadConfig r.config s).1 = .ok c) (h : r.run s = (.ok (), t)) : ∃ o plan,
      c.options = .ok o ∧ ofDiscovery s.disk.shown (r.discover s.disk c) = .ok plan ∧
      r.carryOut c o (r.discover s.disk c).count plan s = (.ok (), t) := by
  rw [run_eq hc] at h
  cases ho : c.options with
  | error e => rw [ho] at h; cases h
  | ok o =>
    cases hp : ofDiscovery s.disk.shown (r.discover s.disk c) with
    | error e => rw [ho, hp] at h; cases h
    | ok plan =>
      rw [ho, hp] at h
      exact ⟨o, plan, rfl, rfl, h⟩

/-- Carrying out a plan is building all its stylesheets. Before and after it no file changes. -/
theorem carryOut_eq_ok {r : BuildRequest} {c : Config} {o : Options} {count : Nat}
    {plan : List Planned} {s t : State} (h : r.carryOut c o count plan s = (.ok (), t)) :
    ∃ ps ds u v, Plugin.install ⟨o, Compiler.stageName⟩ [.compiler] = .ok ps ∧
      ChangesAt (fun _ => False) s.disk u.disk ∧
      Builder.buildAll ⟨r.output c, r.inline, ps⟩ plan .fresh u = (.ok ds, v) ∧
      ChangesAt (fun _ => False) v.disk t.disk := by
  have build {u : State} (h : r.buildPlanned c o count plan u = (.ok (), t)) :
      ∃ ps ds v, Plugin.install ⟨o, Compiler.stageName⟩ [.compiler] = .ok ps ∧
        Builder.buildAll ⟨r.output c, r.inline, ps⟩ plan .fresh u = (.ok ds, v) ∧
        ChangesAt (fun _ => False) v.disk t.disk := by
    obtain ⟨ps, u₁, installed, h₁⟩ := Action.bind_eq_ok h
    obtain ⟨ds, v, all, h₂⟩ := Action.bind_eq_ok h₁
    obtain ⟨pipeline, rfl⟩ := Prod.mk.inj installed
    have ends : ChangesAt (fun _ => False) v.disk (r.conclude c count ds v).2.disk :=
      r.touches_conclude c count ds v rfl
    rw [h₂] at ends
    exact ⟨ps, ds, v, pipeline, all, ends⟩
  obtain ⟨has, s₁, asked, h₁⟩ := Action.bind_eq_ok h
  obtain ⟨-, rfl⟩ := Prod.mk.inj asked
  dsimp only at h₁
  split at h₁
  · obtain ⟨u, s₂, made, h₂⟩ := Action.bind_eq_ok h₁
    have first : ChangesAt (fun _ => False) s.disk (Action.makeOutput (r.output c) s).2.disk :=
      Action.touches_makeOutput _ s rfl
    rw [made] at first
    obtain ⟨ps, ds, v, installed, all, ends⟩ := build h₂
    exact ⟨ps, ds, s₂, v, installed, first, all, ends⟩
  · obtain ⟨ps, ds, v, installed, all, ends⟩ := build h₁
    exact ⟨ps, ds, s, v, installed, .refl _ _, all, ends⟩

/-- A build whose stylesheets give no cause for confusion: their paths have no characters of
requests and no two dots, they are not taken for passed-through stylesheets, their names are no
dots, and no output is one of them. -/
structure IsPlain (r : BuildRequest) (d : Disk) (c : Config) : Prop where
  chars : ∀ f ∈ (r.discover d c).stylesheets, '?' ∉ f.chars ∧ '\\' ∉ f.chars
  up : ∀ f ∈ (r.discover d c).stylesheets, .up ∉ f.components
  shown : ∀ f ∈ (r.discover d c).stylesheets, ¬virtualStem <+: (d.shown f).toList
  stems : ∀ f ∈ (r.discover d c).stylesheets, outputName f ≠ ['.'] ∧ outputName f ≠ ['.', '.']
  own : ∀ f ∈ (r.discover d c).stylesheets, ¬IsOutput (r.discover d c).root
    (d.landing (r.output c)) r.inline (r.discover d c).stylesheets (d.landing f)

/-- A build whose root says something, or whose stylesheets have paths that begin with names. -/
def IsRooted (r : BuildRequest) (d : Disk) (c : Config) : Prop :=
  (r.discover d c).root.chars ≠ [] ∨
    ∀ f ∈ (r.discover d c).stylesheets, ∃ n cs, f.components = .name n :: cs

theorem IsPlain.placed {r : BuildRequest} {d : Disk} {c : Config} (h : r.IsPlain d c)
    (rooted : r.IsRooted d c) :
    ∀ f ∈ (r.discover d c).stylesheets, IsPlaced (r.discover d c).root f := fun f hf =>
  isPlaced_of_plain (h.up f hf) (rooted.imp_right fun all => all f hf) (h.stems f hf).1
    (h.stems f hf).2

def importBeside (f : Path) : String :=
  Plugin.importLine ("./" ++ String.ofList (outputName f ++ ".export.css".toList))

theorem IsPlain.inScope {r : BuildRequest} {d : Disk} {c : Config} (h : r.IsPlain d c)
    (home : d.HasHome) {f : Path} (hf : f ∈ (r.discover d c).stylesheets) {source : String}
    (file : d.entryAt? (d.landing f) = some (.file source))
    (last : ∀ n, f.fileName? = some n → f.parts.getLast? = some n) (p : Plugin) :
    p.inScope (requestId (d.shown f) r.inline) = true ∧
      (Request.ofId (requestId (d.shown f) r.inline)).isInline = r.inline := by
  obtain ⟨n, e, hn, ext, he⟩ := Discovery.isStylesheet_iff.mp (of_mem_discover hf).1
  obtain ⟨q, shown, lastq, chars⟩ := exists_shown home hn (last n hn) file
  have text : q.text.toList = q.chars := String.toList_ofList
  have free := h.shown f hf
  have other {c : Char} (hs : c ≠ '/') (hc : c ∉ f.chars) : c ∉ q.chars := fun hq =>
    (chars c hq).elim hs hc
  have question := other (by decide) (h.chars f hf).1
  have backslash := other (by decide) (h.chars f hf).2
  rw [shown] at free ⊢
  refine ⟨inScope_requestId question backslash lastq ext he (text ▸ free) p r.inline, ?_⟩
  rw [ofId_requestId (text ▸ question) (text ▸ backslash), isInline_query]

/-- A build that ends well has written the outputs of its stylesheets and nothing else, besides
making directories. The module of a stylesheet has the code of its pipeline run; unless it comes
inline, the module imports the file beside it in place of the passed-through stylesheet, and that
file holds exactly what the extraction passes on. -/
theorem run_writes {r : BuildRequest} {s t : State} {c : Config} (home : s.disk.HasHome)
    (hc : (loadConfig r.config s).1 = .ok c) (plain : r.IsPlain s.disk c)
    (rooted : r.IsRooted s.disk c) (h : r.run s = (.ok (), t)) :
    let x := r.discover s.disk c
    let out := s.disk.landing (r.output c)
    ∃ o ps, c.options = .ok o ∧ Plugin.install ⟨o, Compiler.stageName⟩ [.compiler] = .ok ps ∧
      ChangesAt (IsOutput x.root out r.inline x.stylesheets) s.disk t.disk ∧
      ∀ f ∈ x.stylesheets, ∃ source code ds,
        s.disk.entryAt? (s.disk.landing f) = some (.file source) ∧
        let id := requestId (s.disk.shown f) r.inline
        (ps.run id source .fresh).1 = .ok ⟨if r.inline then code
          else Plugin.importLine (Request.ofId id).virtualId ++ code, ds⟩ ∧
        t.disk.entryAt? (outputPlace x.root out f ".js".toList) =
          some (.file (if r.inline then code else importBeside f ++ code)) ∧
        (r.inline = false → t.disk.entryAt? (outputPlace x.root out f ".export.css".toList) =
          some (.file (Extraction.ofText o.casing source.toList).extract.passthrough)) := by
  intro x out
  obtain ⟨o, plan, options, hp, carried⟩ := run_eq_ok hc h
  obtain ⟨⟨fs, perm, rfl⟩, apart⟩ := ofDiscovery_eq_ok hp
  obtain ⟨ps, all, u, v, installed, before, built, after⟩ := carryOut_eq_ok carried
  have changes := changesAt_run hc hp (plain.placed rooted)
  rw [h] at changes
  have mem {f : Path} : f ∈ fs ↔ f ∈ x.stylesheets := perm.mem_iff
  have placed : ∀ f ∈ fs, IsPlaced x.root f := fun f hf => plain.placed rooted f (mem.mp hf)
  have own : ∀ f ∈ fs, ¬IsOutput x.root (u.disk.landing (r.output c)) r.inline fs
      (u.disk.landing f) := by
    intro f hf hw
    rw [landing_congr before.here, landing_congr before.here] at hw
    exact plain.own f (mem.mp hf) (hw.mono fun _ => mem.mp)
  have isBuilt := Builder.buildAll_eq_ok placed
    (outputs_apart placed ((perm.pairwise_iff fun {_ _} => Ne.symm).mpr apart) _) own built
  refine ⟨o, ps, options, installed, changes, fun f hf => ?_⟩
  obtain ⟨source, w, y, z, file, last, run, js, css⟩ :=
    ((isBuilt f (mem.mpr hf)).before before id).after after fun _ _ => id
  obtain ⟨scope, inline⟩ := plain.inScope home hf file last ⟨o, Compiler.stageName⟩
  obtain rfl := Except.ok.inj ((Plugin.install_compiler rfl).symm.trans installed)
  obtain ⟨⟨code, hw⟩, passed⟩ := Plugin.run_compiler_eq_ok scope run
  have alike := (Plugin.run_compiler scope source y).symm.trans (congrArg Prod.fst run)
  rw [inline] at hw passed
  refine ⟨source, code, w.diagnostics, file, ?_, ?_, fun hi => ?_⟩
  · rw [Plugin.run_compiler scope, alike, ← hw]
  · rw [js, hw]
    cases r.inline with
    | true => rfl
    | false => exact congrArg (fun code => some (Entry.file code)) (Plugin.exchange_importLine _ _ _)
  · rw [css hi, passed hi]
    rfl

/-- What a stylesheet passes on is written below the output directory where the stylesheet is below
the root. -/
theorem run_writes_nested :
    let r : BuildRequest := ⟨[.ofString "app"], none, false, none⟩
    let d : Disk := ⟨[(["app".toList], .directory), (["app".toList, "x".toList], .directory),
      (["app".toList, "x".toList, "a.css".toList], .file ".a \x7b\x7d")], []⟩
    ∃ t, r.run ⟨d, []⟩ = (.ok (), t) ∧
      t.disk.entryAt? ["dist".toList, "x".toList, "a.export.css".toList] =
        some (.file ".a \x7b\x7d") := by
  intro r d
  have found : (r.discover d .default).stylesheets = [.ofString "app/x/a.css"] := by decide +kernel
  have home : d.HasHome := ⟨fun n hn => absurd hn List.not_mem_nil, by decide⟩
  have plain : r.IsPlain d .default := by
    constructor <;> rw [found] <;> decide +kernel
  have ends : (r.run ⟨d, []⟩).1 = .ok () := by decide +kernel
  obtain ⟨o, ps, options, -, -, writes⟩ := run_writes home (by decide +kernel) plain
    (.inl (by decide +kernel)) (Prod.ext ends rfl)
  obtain ⟨source, code, ds, file, -, -, css⟩ := writes (.ofString "app/x/a.css") (by
    rw [found]
    exact List.mem_singleton_self _)
  obtain rfl := Except.ok.inj options
  have text : some (Entry.file source) = some (.file ".a \x7b\x7d") := file.symm.trans (by
    decide +kernel)
  obtain rfl := Entry.file.inj (Option.some.inj text)
  refine ⟨_, Prod.ext ends rfl, Eq.trans ?_ ((css rfl).trans ?_)⟩
  · exact congrArg _ (by decide +kernel)
  · decide +kernel

/-- If a file in the working directory is asked for first, the root says nothing, and a stylesheet
that is asked for from the root of all files is built where it stands. -/
theorem not_written_below_unrooted : ∃ (r : BuildRequest) (s t : State),
    s.disk.HasHome ∧ (loadConfig r.config s).1 = .ok .default ∧ r.IsPlain s.disk .default ∧
    r.run s = (.ok (), t) ∧ ∃ a, s.disk.entryAt? a = none ∧
      ¬s.disk.landing (r.output .default) <+: a ∧ t.disk.entryAt? a = some (.file ".b \x7b\x7d") := by
  let d : Disk := ⟨[(["w".toList], .directory), (["w".toList, "a.css".toList], .file ".a \x7b\x7d"),
    (["w".toList, "lib".toList], .directory),
    (["w".toList, "lib".toList, "b.css".toList], .file ".b \x7b\x7d")], ["w".toList]⟩
  let r : BuildRequest := ⟨[.ofString "a.css", .ofString "/w/lib/b.css"], none, false, none⟩
  have found : r.discover d .default =
      ⟨⟨[]⟩, .default, false, [.ofString "a.css", .ofString "/w/lib/b.css"]⟩ := by decide +kernel
  have config : (loadConfig r.config ⟨d, []⟩).1 = .ok .default := by decide +kernel
  have plan : ofDiscovery d.shown (r.discover d .default) =
      .ok [⟨.ofString "/w/lib/b.css", .ofString "/w/lib/b"⟩, ⟨.ofString "a.css", .ofString "a"⟩] := by
    have added : addAll d.shown ⟨[]⟩ [] [.ofString "a.css", .ofString "/w/lib/b.css"] =
        .ok [⟨.ofString "a.css", .ofString "a"⟩, ⟨.ofString "/w/lib/b.css", .ofString "/w/lib/b"⟩] := by
      decide +kernel
    have after : (Path.ofString "a").le (.ofString "/w/lib/b") = false := by decide +kernel
    rw [found, ofDiscovery, added, Except.map]
    simp [List.mergeSort, List.MergeSort.Internal.splitInTwo, after]
  have home : d.HasHome := by
    refine ⟨fun n hn => ?_, by decide⟩
    obtain rfl := List.mem_singleton.mp hn
    exact ⟨by decide, by decide, by decide⟩
  have plain : r.IsPlain d .default := by
    constructor <;> rw [found] <;> decide +kernel
  have ends : (r.run ⟨d, []⟩).1 = .ok () := by
    rw [run_eq config, plan]
    decide +kernel
  refine ⟨r, ⟨d, []⟩, (r.run ⟨d, []⟩).2, home, config, plain, Prod.ext ends rfl,
    ["w".toList, "lib".toList, "b.export.css".toList], by decide +kernel, by decide +kernel, ?_⟩
  rw [run_eq config, plan]
  decide +kernel

end BuildRequest

end Command

end StyleExports
