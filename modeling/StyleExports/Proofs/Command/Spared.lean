import StyleExports.Proofs.Command.Discovered
import StyleExports.Proofs.Command.Written
import StyleExports.Proofs.Disk.Tree

namespace StyleExports

open Text Disk

theorem Disk.Path.cutExtension_append {stem e : List Char} (hs : stem ≠ []) (he : '.' ∉ e) :
    cutExtension (stem ++ '.' :: e) = (stem, some e) := by
  have free : ∀ c ∈ e, (c == '.') = false := by
    intro c hc
    rw [beq_eq_false_iff_ne]
    rintro rfl
    exact he hc
  have cut := cutLast?_append_cons (p := (· == '.')) (a := stem) (c := '.') rfl free
  obtain ⟨c, stem, rfl⟩ := List.exists_cons_of_ne_nil hs
  rw [cutExtension, cut]

namespace Command

namespace Planned

theorem landing_outputPath (d : Disk) (p : Planned) (out : Path) {e : List Char} (he : '/' ∉ e)
    (hl : 2 < e.length) :
    d.landing (p.outputPath out e) = d.landing (p.directory out) ++ [outputName p.file ++ e] := by
  rw [landing, outputPath, Path.components_join_name (isName_output p.file he hl), leadAll_append]
  rfl

theorem name_of_landing {d : Disk} {p : Planned} {out g : Path} {e n : List Char} (he : '/' ∉ e)
    (hl : 2 < e.length) (h : d.landing (p.outputPath out e) = d.landing g)
    (hn : g.fileName? = some n) : n = outputName p.file ++ e := by
  obtain ⟨cs, hcs⟩ := Path.fileName?_eq_some hn
  have lands : d.landing g = leadAll d.here cs ++ [n] := by
    rw [landing, hcs, leadAll_append]
    rfl
  rw [landing_outputPath d p out he hl, lands] at h
  exact (List.singleton_inj.mp (List.append_inj' h rfl).2).symm

variable {d : Disk} {p : Planned} {out g : Path}

theorem js_ne_stylesheet (hg : Discovery.isStylesheet g = true) :
    d.landing (p.outputPath out ".js".toList) ≠ d.landing g := by
  intro h
  obtain ⟨n, e, name, ext, he⟩ := Discovery.isStylesheet_iff.mp hg
  have cut := Path.cutExtension_append (e := "js".toList) (outputName_ne_nil p.file).1 (by decide)
  rw [name_of_landing (by decide) (by decide) h name] at ext
  rw [← Option.some.inj ((congrArg Prod.snd cut).symm.trans ext)] at he
  exact absurd he (by decide)

theorem css_ne_own (hp : Discovery.isStylesheet p.file = true) :
    d.landing (p.outputPath out ".export.css".toList) ≠ d.landing p.file := by
  intro h
  obtain ⟨n, e, name, -, -⟩ := Discovery.isStylesheet_iff.mp hp
  have whole := name_of_landing (by decide) (by decide) h name
  have proper : outputName p.file ++ ".export".toList ≠ [] := by simp
  have cut := Path.cutExtension_append (e := "css".toList) proper (by decide)
  have stem : outputName p.file = (Path.cutExtension n).1 := by
    rw [outputName, Path.stem?, name]
    rfl
  rw [List.append_assoc, ← show ".export.css".toList = ".export".toList ++ '.' :: "css".toList by decide,
    ← whole] at cut
  rw [cut] at stem
  have long := congrArg List.length stem
  simp at long

end Planned

open Planned

namespace Action

/-- The text of a file as it is in a file system, whatever has happened to it since. -/
def readFrom (d : Disk) (p : Path) : Action String :=
  ofResult (read .readSource p ⟨d, []⟩).1

theorem read_eq_readFrom {d : Disk} {p : Path} {s : State} (h : s.disk.read p = d.read p) :
    read .readSource p s = readFrom d p s := by
  simp only [read, readFrom, ofResult, ExceptT.mk, h]
  cases d.read p <;> rfl

section

variable {here : Place} {K : Place → Prop}

theorem lasting_keepsAt (here : Place) (K : Place → Prop) : Disk.Lasting (From here (Holds K)) :=
  (lasting_holds K).from_here here fun _ _ h => h.here

theorem makeOutput_keepsAt (p : Path) : Keeps (From here (Holds K)) (makeOutput p) := by
  intro s _
  rw [makeOutput, disk_change]
  exact (lasting_holds K).ensureDirectories (fun _ _ _ => Holds.makeDirectory) s.disk p

theorem write_keepsAt (use : FileUse) {p : Path} (content : String)
    (h : ∀ d : Disk, d.here = here → ¬K (d.landing p)) :
    Keeps (From here (Holds K)) (write use p content) := by
  intro s hs
  rw [write, disk_change]
  exact (lasting_holds K).attempt fun e he => Holds.write he (h _ hs)

end

theorem bind_congr {α β : Type} {x y : Action α} {f g : α → Action β} {s : State} (hx : x s = y s)
    (h : ∀ a t, x s = (.ok a, t) → f a t = g a t) : (x >>= f) s = (y >>= g) s := by
  rw [bind_run, bind_run, ← hx]
  cases hs : x s with
  | mk r t =>
    cases r with
    | error e => rfl
    | ok a => exact h a t hs

end Action

namespace Builder

def buildText (b : Builder) (p : Planned) (x : BuildContext) (source : String) :
    Action (Diagnostics × BuildContext) := do
  let shown ← Action.ask (·.shown p.file)
  let id := requestId shown b.inline
  Action.say "Compiling" shown
  let (r, x) := b.pipeline.run id source x
  let work ← Action.ofResult r
  Action.report work.diagnostics
  Action.makeOutput (p.directory b.output)
  let code ← if b.inline then pure work.code
    else writePassed id (outputName p.file) (p.directory b.output) x work.code
  Action.write .writeOutput (p.outputPath b.output ".js".toList) code
  return (work.diagnostics, x)

def buildAllWith (source : Path → Action String) (b : Builder) :
    List Planned → BuildContext → Action Diagnostics
  | [], _ => return []
  | p :: ps, x => do
    let (ds, x) ← source p.file >>= b.buildText p x
    let more ← b.buildAllWith source ps x
    return ds ++ more

theorem buildFile_eq (b : Builder) (p : Planned) (x : BuildContext) :
    b.buildFile p x = Action.read .readSource p.file >>= b.buildText p x := rfl

/-- As long as the stylesheets are kept, a build of them reads what was there when it began. -/
theorem buildAll_eq_with {b : Builder} {d : Disk} {K : Place → Prop} {plan : List Planned}
    (files : ∀ p ∈ plan, ∃ a, d.Reaches p.file a ∧ K a ∧ (d.entryAt? a).isSome = true)
    (keeps : ∀ p ∈ plan, ∀ x, Action.Keeps (Action.From d.here (Holds K)) (b.buildFile p x))
    {s : State} (holds : Holds K d s.disk) (x : BuildContext) :
    b.buildAll plan x s = b.buildAllWith (Action.readFrom d) plan x s := by
  induction plan generalizing x s with
  | nil => rfl
  | cons p plan ih =>
    obtain ⟨a, reaches, ha, there⟩ := files p List.mem_cons_self
    have first : b.buildFile p x s = (Action.readFrom d p.file >>= b.buildText p x) s := by
      rw [buildFile_eq]
      exact Action.bind_congr (Action.read_eq_readFrom (holds.read reaches ha there)) fun _ _ _ => rfl
    refine Action.bind_congr first fun (ds, y) t ht => ?_
    have step := keeps p List.mem_cons_self x s holds.here
    rw [ht] at step
    have rest := ih (fun q hq => files q (List.mem_cons_of_mem _ hq))
      (fun q hq => keeps q (List.mem_cons_of_mem _ hq)) (holds.trans step) y
    exact Action.bind_congr rest fun _ _ _ => rfl

end Builder

namespace BuildRequest

def carryOutWith (source : Path → Action String) (r : BuildRequest) (c : Config) (o : Options)
    (count : Nat) (plan : List Planned) : Action Unit := do
  if !(← Action.ask (·.has (r.output c))) then Action.makeOutput (r.output c)
  let pipeline ← Action.ofResult (Plugin.install ⟨o, Compiler.stageName⟩ [.compiler])
  let ds ← Builder.buildAllWith source ⟨r.output c, r.inline, pipeline⟩ plan .fresh
  r.conclude c count ds

def outputOf (r : BuildRequest) (d : Disk) (c : Config) (f : Path) (ending : List Char) : Path :=
  (ofFile (r.discover d c).root f).outputPath (r.output c) ending

/-- No output of a build is one of the stylesheets that it discovers. -/
def Spares (r : BuildRequest) (d : Disk) (c : Config) : Prop :=
  ∀ f ∈ (r.discover d c).stylesheets, ∀ e ∈ endings r.inline,
    ∀ g ∈ (r.discover d c).stylesheets, d.landing (r.outputOf d c f e) ≠ d.landing g

/-- A build spares its stylesheets if what they pass on comes inline, or if no other stylesheet
stands where it is written. -/
theorem spares_iff {r : BuildRequest} {d : Disk} {c : Config} : r.Spares d c ↔
    (r.inline = false → ∀ f ∈ (r.discover d c).stylesheets, ∀ g ∈ (r.discover d c).stylesheets,
      g ≠ f → d.landing (r.outputOf d c f ".export.css".toList) ≠ d.landing g) := by
  constructor
  · exact fun spares apart f hf g hg _ => spares f hf _ (mem_endings.mpr (.inr ⟨apart, rfl⟩)) g hg
  · intro others f hf e he g hg
    rcases mem_endings.mp he with rfl | ⟨apart, rfl⟩
    · exact js_ne_stylesheet (of_mem_discover hg).1
    · by_cases same : g = f
      · rw [same]
        exact css_ne_own (p := ofFile _ f) (of_mem_discover hf).1
      · exact others apart f hf g hg same

theorem reaches_of_mem {r : BuildRequest} {d : Disk} (tree : d.IsTree) {c : Config} {f : Path}
    (h : f ∈ (r.discover d c).stylesheets) :
    d.Reaches f (d.landing f) ∧ (d.entryAt? (d.landing f)).isSome = true := by
  obtain ⟨a, e, reaches, entry⟩ : ∃ a e, d.Reaches f a ∧ d.entryAt? a = some e := by
    rcases (of_mem_discover h).2 with ⟨p, walk⟩ | file
    · obtain ⟨a, e, reaches, entry, -⟩ := tree.reaches_of_mem_walk walk
      exact ⟨a, e, reaches, entry⟩
    · rw [hasFile, Bool.and_eq_true, has, find?] at file
      have there := file.1
      split at there
      · rename_i a place
        obtain ⟨e, entry⟩ := Option.isSome_iff_exists.mp there
        exact ⟨a, e, reaches_of_place? place, entry⟩
      · cases there
  obtain rfl := reaches.landing
  exact ⟨reaches, by rw [entry]; rfl⟩

/-- Until its stylesheets are built, a build makes directories only; so what it carries out is
carried out with the texts that were there when it began. -/
theorem carryOut_eq_with {r : BuildRequest} {s : State} {c : Config} {o : Options} {count : Nat}
    {plan : List Planned} {K : Place → Prop}
    (files : ∀ p ∈ plan, ∃ a, s.disk.Reaches p.file a ∧ K a ∧ (s.disk.entryAt? a).isSome = true)
    (apart : ∀ p ∈ plan, ∀ e ∈ endings r.inline,
      ¬K (s.disk.landing (p.outputPath (r.output c) e))) :
    r.carryOut c o count plan s = r.carryOutWith (Action.readFrom s.disk) c o count plan s := by
  have keeps (ps : Pipeline) : ∀ p ∈ plan, ∀ x, Action.Keeps (Action.From s.disk.here (Holds K))
      (Builder.buildFile ⟨r.output c, r.inline, ps⟩ p x) := fun p hp =>
    Builder.keeps_buildFile (Action.lasting_keepsAt _ K) _ Action.makeOutput_keepsAt
      fun e he code => Action.write_keepsAt _ _ fun d hd => by
        rw [landing_congr hd]
        exact apart p hp e he
  have build {t : State} (holds : Holds K s.disk t.disk) : r.buildPlanned c o count plan t = (do
      let pipeline ← Action.ofResult (Plugin.install ⟨o, Compiler.stageName⟩ [.compiler])
      let ds ← Builder.buildAllWith (Action.readFrom s.disk) ⟨r.output c, r.inline, pipeline⟩ plan
        .fresh
      r.conclude c count ds) t := by
    refine Action.bind_congr rfl fun ps u hu => ?_
    obtain ⟨-, rfl⟩ := Prod.mk.inj hu
    exact Action.bind_congr (Builder.buildAll_eq_with files (keeps ps) holds _) fun _ _ _ => rfl
  unfold carryOut carryOutWith
  dsimp only
  refine Action.bind_congr rfl fun has t ht => ?_
  obtain ⟨-, rfl⟩ := Prod.mk.inj ht
  split
  · refine Action.bind_congr rfl fun _ u hu => ?_
    have made := Action.makeOutput_keepsAt (K := K) (r.output c) s rfl
    rw [hu] at made
    exact build made
  · exact build (.refl K _)

/-- Whatever comes of a build, it changes nothing but the places of its outputs, besides making
directories. Its outputs are no stylesheets of it if what they pass on comes inline, or if no other
stylesheet stands where it is written. Then all its stylesheets are afterwards as they were, and it
runs as with the texts that they had when it began. -/
theorem run_spares {r : BuildRequest} {s : State} {c : Config} (tree : s.disk.IsTree)
    (hc : (loadConfig r.config s).1 = .ok c) :
    let d := s.disk
    let x := r.discover d c
    ChangesAt (fun a => ∃ f ∈ x.stylesheets, ∃ e ∈ endings r.inline, a = d.landing (r.outputOf d c f e))
        d (r.run s).2.disk ∧
      (r.Spares d c ↔ (r.inline = false → ∀ f ∈ x.stylesheets, ∀ g ∈ x.stylesheets, g ≠ f →
        d.landing (r.outputOf d c f ".export.css".toList) ≠ d.landing g)) ∧
      (r.Spares d c →
        (∀ g ∈ x.stylesheets,
          (r.run s).2.disk.entryAt? (d.landing g) = d.entryAt? (d.landing g)) ∧
        ∀ o plan, c.options = .ok o → ofDiscovery d.shown x = .ok plan →
          r.run s = r.carryOutWith (Action.readFrom d) c o x.count plan s) := by
  intro d x
  have planned {plan : List Planned} (hp : ofDiscovery d.shown x = .ok plan) :
      ∀ p ∈ plan, p.file ∈ x.stylesheets ∧ p = ofFile x.root p.file := by
    obtain ⟨⟨fs, perm, rfl⟩, -⟩ := ofDiscovery_eq_ok hp
    intro p hp
    obtain ⟨f, hf, rfl⟩ := List.mem_map.mp hp
    exact ⟨perm.mem_iff.mp hf, rfl⟩
  have changes : ChangesAt (fun a => ∃ f ∈ x.stylesheets, ∃ e ∈ endings r.inline,
      a = d.landing (r.outputOf d c f e)) d (r.run s).2.disk := by
    rw [run_eq hc]
    cases c.options with
    | error e => exact .refl _ _
    | ok o =>
      dsimp only
      cases hp : ofDiscovery s.disk.shown (r.discover s.disk c) with
      | error e => exact .refl _ _
      | ok plan =>
        refine r.keeps_carryOut (Action.lasting_touches d.here _) c x.count o
          Action.touches_makeOutput (fun p mem e he code => ?_) s rfl
        obtain ⟨mem, whole⟩ := planned hp p mem
        refine Action.touches_write _ _ fun d' hd => ⟨p.file, mem, e, he, ?_⟩
        rw [landing_congr hd, outputOf, ← whole]
  refine ⟨changes, spares_iff, fun spares => ⟨fun g hg => ?_, fun o plan ho hp => ?_⟩⟩
  · have own : ¬∃ f ∈ x.stylesheets, ∃ e ∈ endings r.inline,
        d.landing g = d.landing (r.outputOf d c f e) := by
      rintro ⟨f, hf, e, he, same⟩
      exact spares f hf e he g hg same.symm
    rcases changes.others _ own with same | ⟨was, -⟩
    · exact same
    · have there := (reaches_of_mem tree hg).2
      rw [was] at there
      cases there
  · rw [run_eq hc, ho]
    dsimp only
    rw [hp]
    refine carryOut_eq_with (K := fun a => ∃ g ∈ x.stylesheets, a = d.landing g) ?_ ?_
    · intro p mem
      obtain ⟨reaches, there⟩ := reaches_of_mem tree (planned hp p mem).1
      exact ⟨_, reaches, ⟨_, (planned hp p mem).1, rfl⟩, there⟩
    · rintro p mem e he ⟨g, hg, same⟩
      obtain ⟨hf, whole⟩ := planned hp p mem
      rw [whole] at same
      exact spares p.file hf e he g hg same

/-- Stylesheets are spared by a build that writes beside them. -/
theorem run_spares_beside :
    let r : BuildRequest := ⟨[.ofString "a.css", .ofString "b.css"], some (.ofString "."), false, none⟩
    let d : Disk := ⟨[(["a.css".toList], .file ".a \x7b\x7d"), (["b.css".toList], .file ".b \x7b\x7d")],
      []⟩
    (r.run ⟨d, []⟩).2.disk.entryAt? ["b.css".toList] = some (.file ".b \x7b\x7d") := by
  intro r d
  have found : (r.discover d .default).stylesheets = [.ofString "a.css", .ofString "b.css"] := by
    decide +kernel
  have run := run_spares (r := r) (s := ⟨d, []⟩) (c := .default) (by decide +kernel) (by decide +kernel)
  have spares : r.Spares d .default := run.2.1.mpr fun _ => by
    rw [found]
    decide +kernel
  have same := (run.2.2 spares).1 (.ofString "b.css") (by rw [found]; simp)
  exact same.trans (by decide +kernel)

/-- What a stylesheet passes on is written over another stylesheet, which is then built from it. -/
theorem not_spared_by_name : ∃ (r : BuildRequest) (s t : State),
    s.disk.IsTree ∧ (loadConfig r.config s).1 = .ok .default ∧
    .ofString "a.export.css" ∈ (r.discover s.disk .default).stylesheets ∧
    s.disk.entryAt? ["a.export.css".toList] = some (.file ".b \x7b\x7d") ∧
    r.run s = (.ok (), t) ∧
    t.disk.entryAt? ["a.export.css".toList] = some (.file ".a \x7b\x7d") ∧
    t.disk.entryAt? ["a.export.js".toList] = some (.file ("import \"./a.export.export.css\";\n" ++
      "export const __vite__css = \".a \x7b\x7d\";\nexport default \x7b\x7d;\n")) := by
  let d : Disk := ⟨[(["a.css".toList], .file ".a \x7b\x7d"),
    (["a.export.css".toList], .file ".b \x7b\x7d")], []⟩
  let r : BuildRequest :=
    ⟨[.ofString "a.css", .ofString "a.export.css"], some (.ofString "."), false, none⟩
  have config : (loadConfig r.config ⟨d, []⟩).1 = .ok .default := by decide +kernel
  have found : r.discover d .default =
      ⟨⟨[]⟩, .default, false, [.ofString "a.css", .ofString "a.export.css"]⟩ := by decide +kernel
  have plan : ofDiscovery d.shown (r.discover d .default) =
      .ok [⟨.ofString "a.css", .ofString "a"⟩, ⟨.ofString "a.export.css", .ofString "a.export"⟩] := by
    have added : addAll d.shown ⟨[]⟩ [] [.ofString "a.css", .ofString "a.export.css"] =
        .ok [⟨.ofString "a.css", .ofString "a"⟩,
          ⟨.ofString "a.export.css", .ofString "a.export"⟩] := by decide +kernel
    have before : (Path.ofString "a").le (.ofString "a.export") = true := by decide +kernel
    rw [found, ofDiscovery, added, Except.map]
    simp [List.mergeSort, List.MergeSort.Internal.splitInTwo, before]
  have ends : (r.run ⟨d, []⟩).1 = .ok () := by
    rw [run_eq config, plan]
    decide +kernel
  refine ⟨r, ⟨d, []⟩, (r.run ⟨d, []⟩).2, by decide +kernel, config, ?_, by decide +kernel,
    Prod.ext ends rfl, ?_, ?_⟩
  · rw [found]
    simp
  · rw [run_eq config, plan]
    decide +kernel
  · rw [run_eq config, plan]
    decide +kernel

end BuildRequest

end Command

end StyleExports
