import StyleExports.Proofs.Command.Plan

namespace StyleExports

open Disk

namespace Command.Action

variable {α β : Type}

theorem bind_run (x : Action α) (f : α → Action β) (s : State) : (x >>= f) s =
    match x s with
    | (.ok a, t) => f a t
    | (.error e, t) => (.error e, t) := by
  simp only [bind, ExceptT.bind, ExceptT.mk, StateT.bind]
  cases x s with
  | mk r t => cases r <;> rfl

/-- Whatever comes of an action, the file systems before and after it are in a relation. -/
def Keeps (R : Disk → Disk → Prop) (x : Action α) : Prop := ∀ s, R s.disk (x s).2.disk

/-- A relation between file systems in which the working directory is the one given. -/
def From (here : Place) (R : Disk → Disk → Prop) (d e : Disk) : Prop := d.here = here → R d e

end Command.Action

namespace Disk.Lasting

open Command.Action

variable {α β : Type} {R : Disk → Disk → Prop} (hR : Lasting R)

include hR

theorem bind {x : Command.Action α} {f : α → Command.Action β} (hx : Keeps R x)
    (hf : ∀ a, Keeps R (f a)) : Keeps R (x >>= f) := by
  intro s
  have first := hx s
  rw [bind_run]
  cases h : x s with
  | mk r t =>
    rw [h] at first
    cases r with
    | error e => exact first
    | ok a => exact hR.trans first (hf a t)

theorem quiet {x : Command.Action α} (h : ∀ s, (x s).2.disk = s.disk) : Keeps R x := by
  intro s
  rw [h]
  exact hR.refl _

theorem pure (a : α) : Keeps R (Pure.pure a : Command.Action α) := hR.quiet fun _ => rfl

theorem say (verb message : String) : Keeps R (Command.Action.say verb message) :=
  hR.quiet fun _ => rfl

theorem report (ds : Diagnostics) : Keeps R (Command.Action.report ds) := hR.quiet fun _ => rfl

theorem ofResult (r : Result α) : Keeps R (Command.Action.ofResult r) := hR.quiet fun _ => rfl

theorem ask (f : Disk → α) : Keeps R (Command.Action.ask f) := hR.quiet fun _ => rfl

theorem read (use : FileUse) (p : Path) : Keeps R (Command.Action.read use p) := by
  refine hR.quiet fun s => ?_
  simp only [Command.Action.read, ExceptT.mk]
  cases s.disk.read p <;> rfl

theorem from_here (here : Place) (h : ∀ d e, R d e → e.here = d.here) : Lasting (From here R) :=
  ⟨fun d _ => hR.refl d, fun first rest hd =>
    hR.trans (first hd) (rest ((h _ _ (first hd)).trans hd))⟩

end Disk.Lasting

namespace Command

namespace Action

variable {α : Type}

theorem disk_change (use : FileUse) (p : Path) (f : Disk → Attempt) (s : State) :
    (change use p f s).2.disk = (f s.disk).2 := by
  simp only [change, ExceptT.mk]
  cases f s.disk with
  | mk fault d => cases fault <;> rfl

/-- With a working directory, an action changes nothing but at the places with a property, besides
making directories. -/
def Touches (here : Place) (P : Place → Prop) (x : Action α) : Prop :=
  Keeps (From here (ChangesAt P)) x

theorem lasting_touches (here : Place) (P : Place → Prop) : Lasting (From here (ChangesAt P)) :=
  (lasting_changesAt P).from_here here fun _ _ h => h.here

section

variable {here : Place} {P : Place → Prop}

theorem touches_write (use : FileUse) {p : Path} (content : String)
    (h : ∀ d : Disk, d.here = here → P (d.landing p)) : Touches here P (write use p content) := by
  intro s hs
  rw [write, disk_change]
  refine changesAt_attempt P fun e he => (changesAt_write he).1.mono ?_
  rintro a rfl
  exact h _ hs

theorem touches_makeOutput (p : Path) : Touches here P (makeOutput p) := by
  intro s _
  rw [makeOutput, disk_change]
  exact (changesAt_ensureDirectories s.disk p).mono fun _ h => h.elim

end

end Action

theorem loadConfig_keeps (p : Option Path) (s : State) :
    loadConfig p s = ((loadConfig p s).1, s) := by
  unfold loadConfig
  rw [Action.bind_run]
  cases p with
  | some p => rfl
  | none =>
    simp only [Action.ask, ExceptT.mk]
    split <;> rfl

/-- How the names of outputs end. What is passed on has no file of its own if it comes inline. -/
def endings (inline : Bool) : List (List Char) :=
  if inline then [".js".toList] else [".js".toList, ".export.css".toList]

theorem mem_endings {inline : Bool} {e : List Char} :
    e ∈ endings inline ↔ e = ".js".toList ∨ inline = false ∧ e = ".export.css".toList := by
  cases inline <;> simp [endings]

namespace Planned

/-- The places of what a build with these stylesheets writes. -/
def IsOutput (root : Path) (out : Place) (inline : Bool) (fs : List Path) (a : Place) : Prop :=
  ∃ f ∈ fs, ∃ e ∈ endings inline, a = outputPlace root out f e

instance (root : Path) (out : Place) (inline : Bool) (fs : List Path) (a : Place) :
    Decidable (IsOutput root out inline fs a) :=
  inferInstanceAs (Decidable (∃ f ∈ fs, ∃ e ∈ endings inline, a = outputPlace root out f e))

theorem IsOutput.mono {root : Path} {out : Place} {inline : Bool} {fs gs : List Path}
    (h : ∀ f ∈ fs, f ∈ gs) {a : Place} : IsOutput root out inline fs a →
      IsOutput root out inline gs a := by
  rintro ⟨f, hf, rest⟩
  exact ⟨f, h f hf, rest⟩

/-- The directory in which a build puts what comes of a planned stylesheet. -/
def directory (p : Planned) (out : Path) : Path := (out.join p.target).parent?.getD (.ofString ".")

def outputPath (p : Planned) (out : Path) (ending : List Char) : Path :=
  (p.directory out).join ⟨outputName p.file ++ ending⟩

theorem landing_of_mem_endings {root f : Path} (h : IsPlaced root f) (d : Disk) (out : Path)
    {inline : Bool} {e : List Char} (he : e ∈ endings inline) :
    d.landing (((ofFile root f).directory out).join ⟨outputName f ++ e⟩) =
      outputPlace root (d.landing out) f e := by
  have short : ∀ i, ∀ e ∈ endings i, '/' ∉ e ∧ 2 < e.length := by decide
  exact landing_output h d out (short inline e he).1 (short inline e he).2

/-- Stylesheets that are placed and have targets of their own have no output in common. -/
theorem outputs_apart {root : Path} {fs : List Path} (placed : ∀ f ∈ fs, IsPlaced root f)
    (apart : fs.Pairwise fun f g =>
      (ofFile root f).target.components ≠ (ofFile root g).target.components)
    (out : Place) {inline : Bool} :
    fs.Pairwise fun f g => ∀ e ∈ endings inline, ∀ e' ∈ endings inline,
      outputPlace root out f e ≠ outputPlace root out g e' := by
  refine apart.imp_of_mem fun {f g} hf hg different e he e' he' => ?_
  have same := outputPlace_ne (placed f hf) (placed g hg) different out
  rcases mem_endings.mp he with rfl | ⟨-, rfl⟩ <;> rcases mem_endings.mp he' with rfl | ⟨-, rfl⟩
  · exact same _
  · exact outputPlace_js_ne_css _ _ _ _
  · exact (outputPlace_js_ne_css _ _ _ _).symm
  · exact same _

end Planned

namespace Builder

open StyleExports.Command.Action Planned

variable {here : Place} {root : Path}

section

variable {R : Disk → Disk → Prop} (hR : Lasting R) (b : Builder)

include hR

/-- What making directories and writing its outputs keeps is kept by the build of a stylesheet. -/
theorem keeps_buildFile {p : Planned} (make : ∀ p, Keeps R (makeOutput p))
    (write : ∀ e ∈ endings b.inline, ∀ code,
      Keeps R (Action.write .writeOutput (p.outputPath b.output e) code)) (x : BuildContext) :
    Keeps R (b.buildFile p x) := by
  have module (source shown code : String) (ds : Diagnostics) : Keeps R (do
      Action.write .writeOutput (p.outputPath b.output ".js".toList) code
      return (ds, (b.pipeline.run (requestId shown b.inline) source x).2)) :=
    hR.bind (write _ (mem_endings.mpr (.inl rfl)) _) fun _ => hR.pure _
  unfold buildFile
  dsimp only
  refine hR.bind (hR.read _ _) fun source => hR.bind (hR.ask _) fun shown =>
    hR.bind (hR.say _ _) fun _ => hR.bind (hR.ofResult _) fun work =>
    hR.bind (hR.report _) fun _ => hR.bind (make _) fun _ => ?_
  split
  · exact hR.bind (hR.pure _) fun code => module source shown code work.diagnostics
  · rename_i apart
    have css := write ".export.css".toList (mem_endings.mpr (.inr ⟨by simpa using apart, rfl⟩))
    exact hR.bind (hR.bind (css _) fun _ => hR.pure _) fun code =>
      module source shown code work.diagnostics

theorem keeps_buildAll {plan : List Planned} (make : ∀ p, Keeps R (makeOutput p))
    (write : ∀ p ∈ plan, ∀ e ∈ endings b.inline, ∀ code,
      Keeps R (Action.write .writeOutput (p.outputPath b.output e) code)) (x : BuildContext) :
    Keeps R (b.buildAll plan x) := by
  induction plan generalizing x with
  | nil => exact hR.pure _
  | cons p plan ih =>
    have rest := ih fun q hq => write q (List.mem_cons_of_mem _ hq)
    refine hR.bind (b.keeps_buildFile hR make (write p List.mem_cons_self) x) fun (ds, y) => ?_
    exact hR.bind (rest y) fun _ => hR.pure _

end

/-- The outputs of stylesheets that are placed are written at their places. -/
theorem touches_output (b : Builder) {fs : List Path} {f : Path} (hf : IsPlaced root f) (mem : f ∈ fs)
    {e : List Char} (he : e ∈ endings b.inline) (code : String) :
    Touches here (IsOutput root (leadAll here b.output.components) b.inline fs)
      (Action.write .writeOutput ((ofFile root f).outputPath b.output e) code) := by
  refine touches_write _ _ fun d hd => ⟨f, mem, e, he, ?_⟩
  have place := landing_of_mem_endings hf d b.output he
  rw [landing, landing, hd] at place
  rw [landing, hd]
  exact place

theorem touches_buildFile (b : Builder) {f : Path} (hf : IsPlaced root f) (x : BuildContext) :
    Touches here (IsOutput root (leadAll here b.output.components) b.inline [f])
      (b.buildFile (ofFile root f) x) :=
  b.keeps_buildFile (lasting_touches _ _) touches_makeOutput
    (fun _ he => b.touches_output hf List.mem_cons_self he) x

theorem touches_buildAll (b : Builder) {fs : List Path} (hf : ∀ f ∈ fs, IsPlaced root f)
    (x : BuildContext) :
    Touches here (IsOutput root (leadAll here b.output.components) b.inline fs)
      (b.buildAll (fs.map (ofFile root)) x) :=
  b.keeps_buildAll (lasting_touches _ _) touches_makeOutput
    (List.forall_mem_map.mpr fun f mem _ he => b.touches_output (hf f mem) mem he) x

end Builder

namespace BuildRequest

open StyleExports.Command.Action Planned

def output (r : BuildRequest) (c : Config) : Path := r.out.getD (.ofString c.output)

/-- What a build says when all its stylesheets are built, unless one of them is at fault. -/
def conclude (r : BuildRequest) (c : Config) (count : Nat) (ds : Diagnostics) : Action Unit := do
  if ds.hasErrors then
    Action.ofResult (.error (.exportErrors (plural (ds.countOf .error) "error" "errors") true))
  let warnings :=
    if ds.hasWarnings then " (" ++ plural (ds.countOf .warning) "warning" "warnings" ++ ")" else ""
  Action.say "Finished"
    (plural count "stylesheet" "stylesheets" ++ " to " ++ (← Action.ask (·.shown (r.output c))) ++
      warnings)

def buildPlanned (r : BuildRequest) (c : Config) (o : Options) (count : Nat)
    (plan : List Planned) : Action Unit := do
  let pipeline ← Action.ofResult (Plugin.install ⟨o, Compiler.stageName⟩ [.compiler])
  let ds ← Builder.buildAll ⟨r.output c, r.inline, pipeline⟩ plan .fresh
  r.conclude c count ds

def carryOut (r : BuildRequest) (c : Config) (o : Options) (count : Nat) (plan : List Planned) :
    Action Unit := do
  if !(← Action.ask (·.has (r.output c))) then Action.makeOutput (r.output c)
  r.buildPlanned c o count plan

/-- A build plans what it discovers with its configuration, and carries out the plan. -/
theorem run_eq {r : BuildRequest} {s : State} {c : Config} (hc : (loadConfig r.config s).1 = .ok c) :
    r.run s =
      match c.options with
      | .error e => (.error e, s)
      | .ok o =>
        match ofDiscovery s.disk.shown (r.discover s.disk c) with
        | .error e => (.error e, s)
        | .ok plan => r.carryOut c o (r.discover s.disk c).count plan s := by
  unfold run
  rw [bind_run, loadConfig_keeps, hc]
  simp only
  rw [bind_run]
  cases c.options with
  | error e => rfl
  | ok o =>
    simp only [ofResult, ExceptT.mk]
    rw [bind_run]
    simp only [Action.ask, ExceptT.mk]
    rw [bind_run]
    simp only
    rw [bind_run]
    cases ofDiscovery s.disk.shown (r.discover s.disk c) <;> rfl

section

variable {R : Disk → Disk → Prop} (hR : Lasting R) (r : BuildRequest) (c : Config) (count : Nat)

include hR

theorem keeps_conclude (ds : Diagnostics) : Keeps R (r.conclude c count ds) := by
  unfold conclude
  dsimp only
  split
  · exact hR.bind (hR.ofResult _) fun _ => hR.bind (hR.ask _) fun _ => hR.say _ _
  · exact hR.bind (hR.ask _) fun _ => hR.say _ _

theorem keeps_carryOut (o : Options) {plan : List Planned} (make : ∀ p, Keeps R (makeOutput p))
    (write : ∀ p ∈ plan, ∀ e ∈ endings r.inline, ∀ code,
      Keeps R (Action.write .writeOutput (p.outputPath (r.output c) e) code)) :
    Keeps R (r.carryOut c o count plan) := by
  have build : Keeps R (r.buildPlanned c o count plan) :=
    hR.bind (hR.ofResult _) fun pipeline =>
      hR.bind (Builder.keeps_buildAll hR ⟨r.output c, r.inline, pipeline⟩ make write _) fun ds =>
        r.keeps_conclude hR c count ds
  unfold carryOut
  dsimp only
  refine hR.bind (hR.ask _) fun has => ?_
  split
  · exact hR.bind (make _) fun _ => build
  · exact build

end

section

variable {here : Place} (r : BuildRequest) (c : Config) (count : Nat)

theorem touches_conclude {P : Place → Prop} (ds : Diagnostics) :
    Touches here P (r.conclude c count ds) := r.keeps_conclude (lasting_touches _ _) c count ds

theorem touches_carryOut (o : Options) {root : Path} {fs : List Path}
    (hf : ∀ f ∈ fs, IsPlaced root f) :
    Touches here (IsOutput root (leadAll here (r.output c).components) r.inline fs)
      (r.carryOut c o count (fs.map (ofFile root))) := by
  refine r.keeps_carryOut (lasting_touches _ _) c count o touches_makeOutput ?_
  rw [List.forall_mem_map]
  exact fun f mem _ he =>
    Builder.touches_output ⟨r.output c, r.inline, []⟩ (hf f mem) mem he

end

theorem changesAt_run {r : BuildRequest} {s : State} {c : Config} {plan : List Planned}
    (hc : (loadConfig r.config s).1 = .ok c)
    (hp : ofDiscovery s.disk.shown (r.discover s.disk c) = .ok plan)
    (placed : ∀ f ∈ (r.discover s.disk c).stylesheets, IsPlaced (r.discover s.disk c).root f) :
    ChangesAt (IsOutput (r.discover s.disk c).root (s.disk.landing (r.output c)) r.inline
      (r.discover s.disk c).stylesheets) s.disk (r.run s).2.disk := by
  obtain ⟨⟨fs, perm, rfl⟩, -⟩ := ofDiscovery_eq_ok hp
  rw [run_eq hc, hp]
  cases c.options with
  | error e => exact .refl _ _
  | ok o =>
    have all : ∀ f ∈ fs, IsPlaced (r.discover s.disk c).root f := fun f hf =>
      placed f (perm.mem_iff.mp hf)
    exact (r.touches_carryOut c (r.discover s.disk c).count o all s rfl).mono fun _ =>
      .mono fun _ => perm.mem_iff.mp

/-- Exactly the stylesheets that are placed have a target that names a file below the output
directory. If all are, a build changes nothing but their outputs below that directory, whatever
comes of it, besides making directories; and no two stylesheets have an output in common. -/
theorem run_stays_below {r : BuildRequest} {s : State} {c : Config} {plan : List Planned}
    (hc : (loadConfig r.config s).1 = .ok c)
    (hp : ofDiscovery s.disk.shown (r.discover s.disk c) = .ok plan) :
    let x := r.discover s.disk c
    let out := s.disk.landing (r.output c)
    ((∀ p ∈ plan, p.IsBelow) ↔ ∀ f ∈ x.stylesheets, IsPlaced x.root f) ∧
      ((∀ f ∈ x.stylesheets, IsPlaced x.root f) →
        ChangesAt (IsOutput x.root out r.inline x.stylesheets) s.disk (r.run s).2.disk ∧
        x.stylesheets.Pairwise fun f g => ∀ e ∈ endings r.inline, ∀ e' ∈ endings r.inline,
          outputPlace x.root out f e ≠ outputPlace x.root out g e') := by
  intro x out
  obtain ⟨⟨fs, perm, rfl⟩, apart⟩ := ofDiscovery_eq_ok hp
  refine ⟨?_, fun placed => ⟨changesAt_run hc hp placed, outputs_apart placed apart out⟩⟩
  rw [List.forall_mem_map]
  simp only [target_isBelow_iff, perm.mem_iff]
  rfl

/-- A stylesheet below a directory that was asked for is built below the output directory. -/
theorem run_stays_below_nested :
    let r : BuildRequest := ⟨[.ofString "app"], none, false, none⟩
    let d : Disk := ⟨[(["app".toList], .directory), (["app".toList, "x".toList], .directory),
      (["app".toList, "x".toList, "a.css".toList], .file ".a \x7b\x7d")], []⟩
    ChangesAt (fun a => a = ["dist".toList, "x".toList, "a.js".toList] ∨
      a = ["dist".toList, "x".toList, "a.export.css".toList]) d (r.run ⟨d, []⟩).2.disk := by
  intro r d
  have found : r.discover d .default = ⟨.ofString "app", .default, false, [.ofString "app/x/a.css"]⟩ := by
    decide +kernel
  have placed : IsPlaced (.ofString "app") (.ofString "app/x/a.css") :=
    ⟨fun c hc => ⟨"x".toList, List.mem_singleton.mp hc⟩, by decide +kernel, by decide +kernel⟩
  have stays := (@run_stays_below r ⟨d, []⟩ .default [⟨.ofString "app/x/a.css", .ofString "x/a"⟩]
    (by decide +kernel) (by decide +kernel)).2 (by rw [found]; simpa using placed)
  refine stays.1.mono ?_
  rw [found]
  rintro a ⟨f, hf, e, he, rfl⟩
  obtain rfl := List.mem_singleton.mp hf
  rcases mem_endings.mp he with rfl | ⟨-, rfl⟩
  · exact .inl (by decide +kernel)
  · exact .inr (by decide +kernel)

/-- A stylesheet that is reached through two dots is planned outside of the output directory, and
its module is written there. -/
theorem not_below_through_parent : ∃ (r : BuildRequest) (s t : State) (plan : List Planned),
    (loadConfig r.config s).1 = .ok .default ∧
    ofDiscovery s.disk.shown (r.discover s.disk .default) = .ok plan ∧
    r.run s = (.ok (), t) ∧ (∃ p ∈ plan, .up ∈ p.target.components) ∧
    ∃ a, s.disk.entryAt? a = none ∧ ¬s.disk.landing (r.output .default) <+: a ∧
      t.disk.entryAt? a = some (.file ("import \"./b.export.css\";\n" ++
        "export const __vite__css = \".b \x7b\x7d\";\nexport default \x7b\x7d;\n")) := by
  let d : Disk := ⟨[(["app".toList], .directory), (["app".toList, "a.txt".toList], .file "a"),
    (["lib".toList], .directory), (["lib".toList, "b.css".toList], .file ".b \x7b\x7d")], []⟩
  let r : BuildRequest := ⟨[.ofString "app", .ofString "app/../lib/b.css"], none, false, none⟩
  have ends : (r.run ⟨d, []⟩).1 = .ok () := by decide +kernel
  refine ⟨r, ⟨d, []⟩, (r.run ⟨d, []⟩).2, [⟨.ofString "app/../lib/b.css", .ofString "../lib/b"⟩],
    by decide +kernel, by decide +kernel, Prod.ext ends rfl, ⟨_, List.mem_singleton_self _, ?_⟩,
    ["lib".toList, "b.js".toList], ?_, ?_, ?_⟩ <;> decide +kernel

end BuildRequest

end Command

end StyleExports
