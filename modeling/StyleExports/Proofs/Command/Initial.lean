import StyleExports.Proofs.Command.InitialConfig
import StyleExports.Proofs.Command.Written
import StyleExports.Proofs.Config.PathPattern

namespace StyleExports.Command.InitRequest

open Text Disk
open Yaml (isVerbatim)

def leftOut : List Char := "node_modules".toList

/-- A first configuration leaves out what lies below a directory with that name. -/
theorem isExcluded_initialConfig (sources : List (List Char)) {p : Path} {n : List Char}
    (last : p.parts.getLast? = some n) (proper : Path.isTrivial n = false) :
    (initialConfig sources).isExcluded p.chars = true ↔ .name leftOut ∈ p.components.dropLast := by
  have pattern : PathPattern.ofText "**/node_modules/*".toList = .inside leftOut := by decide
  have name : IsName leftOut := by decide
  rw [Config.isExcluded, initialConfig, List.any_cons, List.any_nil, Bool.or_false, pattern,
    PathPattern.isMatch, PathPattern.passes_iff_component name last proper]

/-- What is found in a project that has no configuration. -/
def found (r : InitRequest) (d : Disk) : Discovery := Discovery.withConfig d r.path .default false

theorem ofProject_found {r : InitRequest} {d : Disk} (fresh : d.has (Config.pathIn r.path) = false) :
    Discovery.ofProject d r.path = .ok (r.found d) := by
  rw [Discovery.ofProject, fresh, if_neg (by simp)]
  rfl

def start (root : Path) : Path := root.join (.ofString ".")

theorem components_start (root : Path) :
    (start root).components = if root.chars = [] then [.here] else root.components := by
  split
  · rename_i none'
    rw [start, Path.join_of_nil none']
    decide
  · rename_i some'
    rw [start, Path.components_join some' (by decide), show
      (Path.ofString ".").parts.filterMap Path.component? = [] by decide, List.append_nil]

theorem components_start_ne_nil (root : Path) : (start root).components ≠ [] := by
  rw [components_start]
  split
  · simp
  · exact fun none' => by simp_all [Path.components_eq_nil]

theorem prefix_start (root : Path) : root.components <+: (start root).components := by
  rw [components_start]
  split
  · rename_i none'
    rw [Path.components_eq_nil.mpr none']
    exact List.nil_prefix
  · exact List.prefix_rfl

/-- The source of a file is the directory that the file is in, as seen from the root. -/
theorem exists_source {root f : Path} {names : List (List Char)}
    (proper : names ≠ []) (h : f.components = (start root).components ++ names.map .name) :
    ∃ source, sourceOf? root f = some source ∧
      (root.join ⟨source⟩).components = (start root).components ++ names.dropLast.map .name := by
  obtain ⟨directory, parent, above⟩ := Path.exists_parent (components_start_ne_nil root) proper h
  have below : root.components <+: directory.components := by
    rw [above]
    exact (prefix_start root).trans (List.prefix_append _ _)
  obtain ⟨relative, strip⟩ := Path.exists_strip? below
  obtain ⟨-, rest⟩ := Path.components_strip? strip
  rw [above] at rest
  rw [sourceOf?, parent, Option.map_some, strip, Option.getD_some]
  by_cases here : relative.components = []
  · refine ⟨['.'], by simp [here], ?_⟩
    rw [here] at rest
    rw [show root.join ⟨['.']⟩ = start root from rfl]
    by_cases none' : root.chars = []
    · rw [Path.components_eq_nil.mpr none'] at rest
      exact absurd rest.symm (by simp [components_start_ne_nil])
    · rw [components_start, if_neg none', List.drop_left] at rest
      rw [← rest, List.append_nil]
  · have chars : relative.chars ≠ [] := fun none' => here (Path.components_eq_nil.mpr none')
    have slash := Path.components_concat_slash chars
    refine ⟨relative.chars ++ ['/'], by simp [here], ?_⟩
    by_cases none' : root.chars = []
    · rw [Path.join_of_nil none', slash, rest, Path.components_eq_nil.mpr none', List.length_nil,
        List.drop_zero]
    · rw [components_start, if_neg none', List.drop_left] at rest
      rw [Path.components_join_names (slash.trans rest), slash, rest, components_start, if_neg none']

theorem found_eq {r : InitRequest} {d : Disk} {files : List Path} (walk : d.walk (start r.path) = files) :
    r.found d = ⟨r.path, .default, false,
      Discovery.join [] (files.filter Discovery.isStylesheet)⟩ := by
  have included (p : Path) : Config.default.isExcluded p.chars = false := rfl
  have sources : Config.default.effectiveSources = ["."] := rfl
  rw [InitRequest.found, Discovery.withConfig, Discovery.inSources, sources, List.map_singleton,
    List.foldl_cons, List.foldl_nil, Discovery.inDirectory, ← start, walk]
  simp only [included, Bool.not_false, Bool.true_and]

theorem mem_sources {x : Discovery} {source : List Char} :
    source ∈ sources x ↔ ∃ f ∈ x.stylesheets, sourceOf? x.root f = some source := by
  rw [sources, List.mem_eraseDups, List.mem_mergeSort, List.mem_filterMap]

def summary (x : Discovery) : List String :=
  (if sources x = [] then []
    else [status "Discovered" (String.ofList (join [',', ' '] (sources x)))]) ++
  [status "Created" (Error.configFileName ++ " (" ++
    plural x.count "stylesheet" "stylesheets" ++ " found)")]

/-- Where no configuration is, a run writes one and does nothing else. -/
theorem run_eq {r : InitRequest} {s : State} (fresh : s.disk.has (Config.pathIn r.path) = false) :
    r.run s =
      let scanned := s.lines ++ [status "Scanning" (s.disk.shown r.path)]
      match s.disk.write (Config.pathIn r.path) (configText (sources (r.found s.disk))) with
      | .ok e => (.ok (), ⟨e, scanned ++ summary (r.found s.disk)⟩)
      | .error fault => (.error (.file (Config.pathIn r.path).text .writeConfig fault),
          ⟨s.disk, scanned⟩) := by
  have project := ofProject_found fresh
  unfold run
  simp only [Action.bind_run, Action.ask, Action.say, Action.ofResult, Action.write, Action.change,
    ExceptT.mk, fresh, project, Bool.false_and, Bool.false_eq_true, if_false]
  cases s.disk.write (Config.pathIn r.path) (configText (sources (r.found s.disk))) with
  | error fault => rfl
  | ok e =>
    by_cases none' : sources (r.found s.disk) = [] <;>
      simp [Disk.attempt, summary, none', Action.bind_run]

theorem write_of_run {r : InitRequest} {s t : State}
    (fresh : s.disk.has (Config.pathIn r.path) = false) (h : r.run s = (.ok (), t)) :
    s.disk.write (Config.pathIn r.path) (configText (sources (r.found s.disk))) = .ok t.disk := by
  rw [run_eq fresh] at h
  dsimp only at h
  split at h
  · rename_i written
    obtain ⟨-, rfl⟩ := Prod.mk.inj h
    exact written
  · cases h

def configName : List Char := Error.configFileName.toList

theorem isName_configName : IsName configName := by decide

/-- A tree before and after a configuration was written in the directory that a root leads to. -/
structure IsConfigured (root : Path) (a : Place) (d e : Disk) : Prop where
  before : d.IsTree
  after : e.IsTree
  reaches : d.Reaches (start root) a
  directory : d.isDirectoryAt a = true
  asked : ask (Config.pathIn root) = .ok ()
  holds : Holds (fun _ => False) d e
  entries : ∀ b x, b ≠ a ++ [configName] → ((b, x) ∈ e.entries ↔ (b, x) ∈ d.entries)

theorem exists_isConfigured {root : Path} {d e : Disk} {text : String} (tree : d.IsTree)
    (h : d.write (Config.pathIn root) text = .ok e) : ∃ a, IsConfigured root a d e := by
  obtain ⟨a, reaches, directory, lands⟩ := reaches_of_write isName_configName h
  obtain ⟨b, n, asked, -, -, -, -, -, -, -, -⟩ := write_eq_ok h
  refine ⟨a, tree, tree.write h, reaches, directory, asked, .write h id, fun b x other => ?_⟩
  obtain ⟨-, -, rfl⟩ := write_eq h
  rw [← lands] at other
  exact mem_entries_put other

/-- The names that lead from a place to a stylesheet. -/
def IsBelow (d : Disk) (root : Path) (a : Place) (names : List (List Char)) : Prop :=
  names ≠ [] ∧ (∃ x, (a ++ names, x) ∈ d.entries ∧ x ≠ .directory) ∧
    Discovery.isStylesheet ((start root).joinAll names) = true

theorem ne_configName {p : Path} {cs : List Component} {n : List Char}
    (components : p.components = cs ++ [.name n]) (stylesheet : Discovery.isStylesheet p = true) :
    n ≠ configName := by
  rintro rfl
  obtain ⟨m, x, name, extension, known⟩ := Discovery.isStylesheet_iff.mp stylesheet
  rw [Path.fileName?, components, List.getLast?_concat] at name
  obtain rfl := Option.some.inj name
  have yaml : (Path.cutExtension configName).2 = some "yaml".toList := by decide
  obtain rfl := Option.some.inj (yaml.symm.trans extension)
  exact absurd known (by decide)

namespace IsConfigured

variable {root : Path} {a : Place} {d e : Disk} (w : IsConfigured root a d e)

include w

theorem opens {q : Path} {names : List (List Char)} (directory : d.isDirectoryAt (a ++ names) = true)
    (proper : ∀ n ∈ names, IsName n)
    (components : q.components = (start root).components ++ names.map .name)
    (asked : ask q = .ok ()) :
    e.place? q = .ok (a ++ names) ∧ e.isDirectoryAt (a ++ names) = true := by
  have there : (d.entryAt? (a ++ names)).isSome = true := by
    rw [isDirectoryAt_iff.mp directory]
    rfl
  have reaches := (w.reaches.joinAll w.before there).congr directory
    (components.trans (Path.components_joinAll proper (start root)).symm)
  rw [(w.holds.reaches reaches).place?, asked]
  exact ⟨rfl, w.holds.directory _ directory⟩

theorem isName_of_mem {names : List (List Char)} {x : Entry} (h : (a ++ names, x) ∈ d.entries) :
    ∀ n ∈ names, IsName n := fun n hn => (w.before.names _ h n (List.mem_append_right _ hn)).1

theorem asked_start : ask (start root) = .ok () := by
  obtain ⟨-, nul, short⟩ := ask_eq_ok_iff.mp w.asked
  have relative : (Path.ofString Error.configFileName).isAbsolute = false := by decide
  have longer := Path.size_join_le root (q := .ofString ".") (by decide) relative (by decide)
  refine ask_eq_ok_iff.mpr ⟨fun none' => components_start_ne_nil root
    (Path.components_eq_nil.mpr none'), fun mem => ?_, Nat.lt_of_le_of_lt longer short⟩
  rcases Path.mem_of_mem_join mem with mem | mem | mem
  · obtain ⟨t, text⟩ := Path.exists_chars_join root relative
    exact nul (by rw [Config.pathIn, text]; exact List.mem_append_left _ mem)
  · exact absurd mem (by decide)
  · exact absurd mem (by decide)

theorem place_start : d.place? (start root) = .ok a := by
  rw [w.reaches.place?, w.asked_start]
  rfl

theorem asked_source {source : List Char} (verbatim : source.all isVerbatim = true)
    (proper : (root.join ⟨source⟩).components ≠ [])
    (short : size (root.join ⟨source⟩).chars < pathBound) : ask (root.join ⟨source⟩) = .ok () := by
  refine ask_eq_ok_iff.mpr ⟨fun none' => proper (Path.components_eq_nil.mpr none'), fun mem => ?_,
    short⟩
  rcases Path.mem_of_mem_join mem with mem | mem | mem
  · obtain ⟨-, nul, -⟩ := ask_eq_ok_iff.mp w.asked_start
    obtain ⟨t, text⟩ := Path.exists_chars_join root (q := .ofString ".") (by decide)
    exact nul (by rw [start, text]; exact List.mem_append_left _ mem)
  · exact absurd mem (by decide)
  · exact absurd (List.all_eq_true.mp verbatim _ mem) (by decide)

/-- What is found before are the stylesheets below the place. -/
theorem mem_found {cs : List Component} :
    cs ∈ (Discovery.inSources d .default root).map Path.components ↔
      ∃ names, IsBelow d root a names ∧ cs = (start root).components ++ names.map .name := by
  have sources : Config.default.effectiveSources = ["."] := rfl
  have included (p : Path) : Config.default.isExcluded p.chars = false := rfl
  rw [Discovery.inSources, Discovery.mem_components_foldl_join, sources]
  simp only [List.map_nil, List.not_mem_nil, false_or, List.map_singleton, List.mem_singleton,
    exists_eq_left]
  rw [← start, Discovery.mem_components_inDirectory w.before w.place_start w.directory]
  constructor
  · rintro ⟨names, proper, there, rfl, -, stylesheet⟩
    exact ⟨names, ⟨proper, there, stylesheet⟩, rfl⟩
  · rintro ⟨names, ⟨proper, there, stylesheet⟩, rfl⟩
    exact ⟨names, proper, there, rfl, included _, stylesheet⟩

theorem directory_of_isBelow {names : List (List Char)} (h : IsBelow d root a names) :
    d.isDirectoryAt (a ++ names.dropLast) = true ∧ ∀ n ∈ names, IsName n := by
  obtain ⟨proper, ⟨x, there, -⟩, -⟩ := h
  have entry := w.before.entryAt?_of_mem (by simp [proper]) there
  refine ⟨w.before.directory_above (b := [names.getLast proper]) ?_ (by simp), w.isName_of_mem there⟩
  rw [List.append_assoc, List.dropLast_append_getLast, entry]
  rfl

/-- The stylesheets below the place lie in the sources, and every source has one. -/
theorem exists_source_of_isBelow {names : List (List Char)} (h : IsBelow d root a names) :
    ∃ source ∈ sources (Discovery.withConfig d root .default false),
      (root.join ⟨source⟩).components = (start root).components ++ names.dropLast.map .name := by
  obtain ⟨f, mem, components⟩ := List.mem_map.mp (w.mem_found.mpr ⟨names, h, rfl⟩)
  obtain ⟨source, own, same⟩ := exists_source h.1 components
  exact ⟨source, mem_sources.mpr ⟨f, mem, own⟩, same⟩

theorem exists_isBelow_of_source {source : List Char}
    (h : source ∈ sources (Discovery.withConfig d root .default false)) :
    ∃ names, IsBelow d root a names ∧
      (root.join ⟨source⟩).components = (start root).components ++ names.dropLast.map .name := by
  obtain ⟨f, mem, own⟩ := mem_sources.mp h
  obtain ⟨names, below, components⟩ := w.mem_found.mp (List.mem_map_of_mem mem)
  obtain ⟨source', own', same⟩ := exists_source below.1 components
  obtain rfl := Option.some.inj (own.symm.trans own')
  exact ⟨names, below, same⟩

/-- What a first configuration finds in a directory below the place are the stylesheets there, but
those below a directory that is left out. -/
theorem mem_inDirectory {q : Path} (above : List (List Char))
    (directory : d.isDirectoryAt (a ++ above) = true) (proper : ∀ n ∈ above, IsName n)
    (components : q.components = (start root).components ++ above.map .name)
    (asked : ask q = .ok ()) (sources : List (List Char)) (cs : List Component) :
    cs ∈ (Discovery.inDirectory e (initialConfig sources) q).map Path.components ↔ ∃ names,
      names ≠ [] ∧ IsBelow d root a (above ++ names) ∧
      cs = (start root).components ++ (above ++ names).map .name ∧ .name leftOut ∉ cs.dropLast := by
  obtain ⟨place, directory'⟩ := w.opens directory proper components asked
  -- both spellings of a file below `q` have the same components
  have whole {names : List (List Char)} (hn : ∀ n ∈ names, IsName n) : (q.joinAll names).components =
      (start root).components ++ (above ++ names).map .name := by
    rw [Path.components_joinAll hn, components, List.map_append, List.append_assoc]
  have same {names : List (List Char)} (hn : ∀ n ∈ names, IsName n) :
      Discovery.isStylesheet (q.joinAll names) =
        Discovery.isStylesheet ((start root).joinAll (above ++ names)) := by
    refine Discovery.isStylesheet_congr ((whole hn).trans ?_)
    rw [Path.components_joinAll fun n h => (List.mem_append.mp h).elim (proper n) (hn n)]
  have excluded {names : List (List Char)} (some' : names ≠ []) (hn : ∀ n ∈ names, IsName n) :
      (initialConfig sources).isExcluded (q.joinAll names).chars = false ↔
        .name leftOut ∉ ((start root).components ++ (above ++ names).map Component.name).dropLast := by
    have name := hn _ (List.getLast_mem some')
    rw [← whole hn, ← isExcluded_initialConfig sources (Path.last_joinAll some' name q) name.proper,
      Bool.not_eq_true]
  have entries {names : List (List Char)} (some' : names ≠ []) (hn : ∀ n ∈ names, IsName n)
      (stylesheet : Discovery.isStylesheet (q.joinAll names) = true) (x : Entry) :
      (a ++ above ++ names, x) ∈ e.entries ↔ (a ++ (above ++ names), x) ∈ d.entries := by
    rw [List.append_assoc]
    refine w.entries _ x fun config => ?_
    rw [← List.dropLast_append_getLast some', ← List.append_assoc above] at config
    have name := (@List.append_inj' _ _ _ [] _ (List.append_cancel_left config) rfl).2
    have last := whole hn
    rw [← List.dropLast_append_getLast some', ← List.append_assoc above, List.map_append,
      ← List.append_assoc] at last
    rw [List.dropLast_append_getLast some'] at last
    exact ne_configName last stylesheet (List.singleton_inj.mp name)
  rw [Discovery.mem_components_inDirectory w.after place directory', components]
  constructor
  · rintro ⟨names, some', ⟨x, there, file⟩, rfl, included, stylesheet⟩
    have hn : ∀ n ∈ names, IsName n := fun n h =>
      (w.after.names _ there n (List.mem_append_right _ h)).1
    have there := (entries some' hn stylesheet x).mp there
    rw [List.append_assoc, ← List.map_append]
    exact ⟨names, some', ⟨by simp [some'], ⟨x, there, file⟩, same hn ▸ stylesheet⟩, rfl,
      (excluded some' hn).mp included⟩
  · rintro ⟨names, some', ⟨-, ⟨x, there, file⟩, stylesheet⟩, rfl, included⟩
    have hn : ∀ n ∈ names, IsName n := fun n h =>
      w.isName_of_mem there n (List.mem_append_right _ h)
    have stylesheet := (same hn).trans stylesheet
    refine ⟨names, some', ⟨x, (entries some' hn stylesheet x).mpr there, file⟩, ?_,
      (excluded some' hn).mpr included, stylesheet⟩
    rw [List.map_append, List.append_assoc]

/-- What is found again are the stylesheets below the place, but those below a directory that is
left out. -/
theorem mem_again (plain : ∀ source ∈ sources (Discovery.withConfig d root .default false),
      source.all isVerbatim = true ∧ size (root.join ⟨source⟩).chars < pathBound)
    {cs : List Component} :
    cs ∈ (Discovery.inSources e (initialConfig
        (sources (Discovery.withConfig d root .default false))) root).map Path.components ↔
      ∃ names, IsBelow d root a names ∧ cs = (start root).components ++ names.map .name ∧
        .name leftOut ∉ cs.dropLast := by
  have path (source : List Char) : Path.ofString (String.ofList source) = ⟨source⟩ := by
    rw [Path.ofString, String.toList_ofList]
  have opened {source : List Char} {names : List (List Char)} (h : IsBelow d root a names)
      (mem : source ∈ sources (Discovery.withConfig d root .default false))
      (components : (root.join ⟨source⟩).components =
        (start root).components ++ names.dropLast.map .name) :=
    w.mem_inDirectory _ (w.directory_of_isBelow h).1
      (fun n hn => (w.directory_of_isBelow h).2 n (List.dropLast_subset _ hn)) components
      (w.asked_source (plain source mem).1 (by simp [components, components_start_ne_nil])
        (plain source mem).2) (sources (Discovery.withConfig d root .default false)) cs
  have here := w.mem_inDirectory [] (by rw [List.append_nil]; exact w.directory) (by simp)
    (List.append_nil _).symm w.asked_start (sources (Discovery.withConfig d root .default false)) cs
  rw [Discovery.inSources, Discovery.mem_components_foldl_join, effectiveSources_initialConfig,
    List.map_nil, or_iff_right List.not_mem_nil]
  -- every source opens the directory of a stylesheet, and every stylesheet lies in such a directory
  constructor
  · rintro ⟨l, hl, found⟩
    obtain ⟨text, mem, rfl⟩ := List.mem_map.mp hl
    split at mem
    · obtain rfl := List.mem_singleton.mp mem
      obtain ⟨names, -, below, whole, out⟩ := here.mp found
      exact ⟨[] ++ names, below, whole, out⟩
    · obtain ⟨source, named, rfl⟩ := List.mem_map.mp mem
      rw [path] at found
      obtain ⟨beside, below, components⟩ := w.exists_isBelow_of_source named
      obtain ⟨names, -, below', whole, out⟩ := (opened below named components).mp found
      exact ⟨beside.dropLast ++ names, below', whole, out⟩
  · rintro ⟨names, below, whole, out⟩
    obtain ⟨source, mem, components⟩ := w.exists_source_of_isBelow below
    have parted := List.dropLast_append_getLast below.1
    refine ⟨_, List.mem_map.mpr ⟨String.ofList source, ?_, rfl⟩, ?_⟩
    · rw [if_neg (List.ne_nil_of_mem mem)]
      exact List.mem_map_of_mem mem
    · rw [path]
      refine (opened below mem components).mpr ⟨[names.getLast below.1], by simp, ?_, ?_, out⟩
      · rwa [parted]
      · rw [parted, whole]

theorem isExcluded_of_mem {f : Path} (h : f ∈ Discovery.inSources d .default root)
    (sources : List (List Char)) : (initialConfig sources).isExcluded f.chars = true ↔
      .name leftOut ∈ f.components.dropLast := by
  rcases Discovery.mem_foldl_join h with h | ⟨l, hl, h⟩
  · cases h
  obtain rfl := List.mem_singleton.mp hl
  obtain ⟨b, place, found⟩ := mem_walk.mp (Discovery.mem_inDirectory.mp h).1
  obtain rfl := Except.ok.inj (w.place_start.symm.trans place)
  rw [if_pos w.directory] at found
  obtain ⟨names, rfl, proper, x, there, -⟩ := found
  have name := w.isName_of_mem there _ (List.getLast_mem proper)
  exact isExcluded_initialConfig sources (Path.last_joinAll proper name _) name.proper

end IsConfigured

/-- A configuration that was written without one before is read as it was meant, and what is found
with it is what was found before, but for what it leaves out. -/
theorem run_finds_again {r : InitRequest} {s t : State} (tree : s.disk.IsTree)
    (fresh : s.disk.has (Config.pathIn r.path) = false)
    (plain : ∀ source ∈ sources (r.found s.disk), source.all isVerbatim = true ∧
      size (r.path.join ⟨source⟩).chars < pathBound)
    (h : r.run s = (.ok (), t)) :
    Discovery.ofProject s.disk r.path = .ok (r.found s.disk) ∧ ∃ c o again,
      Config.load t.disk (Config.pathIn r.path) = .ok c ∧ c.options = .ok o ∧
      c.excludes = ["**/node_modules/*"] ∧
      c.effectiveSources = (if sources (r.found s.disk) = [] then ["."]
        else (sources (r.found s.disk)).map String.ofList) ∧
      Discovery.ofProject t.disk r.path = .ok again ∧
      (again.stylesheets.map Path.components).Perm
        (((r.found s.disk).stylesheets.filter fun f => !c.isExcluded f.chars).map
          Path.components) := by
  have written := write_of_run fresh h
  obtain ⟨a, w⟩ := exists_isConfigured tree written
  have read := read_write written
  let c := initialConfig (sources (r.found s.disk))
  have load : Config.load t.disk (Config.pathIn r.path) = .ok c := by
    rw [Config.load, read]
    exact ofText_configText fun source mem => (plain source mem).1
  have there : t.disk.has (Config.pathIn r.path) = true := has_of_read read
  refine ⟨ofProject_found fresh, c, _, Discovery.withConfig t.disk r.path c true, load,
    options_initialConfig _, rfl, effectiveSources_initialConfig _, ?_, ?_⟩
  · rw [Discovery.ofProject, there, if_pos rfl, load]
    rfl
  · have unique := Discovery.nodup_components_inSources s.disk .default r.path
    refine (List.perm_ext_iff_of_nodup (Discovery.nodup_components_inSources _ _ _)
      (unique.sublist (List.filter_sublist.map _))).mpr fun cs => (w.mem_again plain).trans ?_
    rw [List.mem_map]
    constructor
    · rintro ⟨names, below, whole, out⟩
      obtain ⟨f, mem, same⟩ := List.mem_map.mp (w.mem_found.mpr ⟨names, below, whole⟩)
      refine ⟨f, List.mem_filter.mpr ⟨mem, ?_⟩, same⟩
      rw [← same, ← w.isExcluded_of_mem mem (sources (r.found s.disk))] at out
      simpa using out
    · rintro ⟨f, mem, rfl⟩
      obtain ⟨mem, included⟩ := List.mem_filter.mp mem
      obtain ⟨names, below, whole⟩ := w.mem_found.mp (List.mem_map_of_mem mem)
      refine ⟨names, below, whole, ?_⟩
      rw [← w.isExcluded_of_mem mem (sources (r.found s.disk))]
      simpa using included

/-- A project with a stylesheet that is left out. -/
theorem run_finds_again_nested :
    let r : InitRequest := ⟨.ofString ".", false⟩
    let d : Disk := ⟨[(["b".toList], .directory), (["b".toList, "x.css".toList], .file ".b \x7b\x7d"),
      (["node_modules".toList], .directory), (["node_modules".toList, "m.css".toList], .file "")], []⟩
    ∃ t again, r.run ⟨d, []⟩ = (.ok (), t) ∧ Discovery.ofProject t.disk r.path = .ok again ∧
      again.stylesheets.map Path.components = [[.here, .name "b".toList, .name "x.css".toList]] := by
  intro r d
  have fresh : d.has (Config.pathIn r.path) = false := by decide +kernel
  have found : r.found d = ⟨r.path, .default, false,
      [.ofString "././b/x.css", .ofString "././node_modules/m.css"]⟩ := by
    have files : d.filesBelow [] =
        [["b".toList, "x.css".toList], ["node_modules".toList, "m.css".toList]] :=
      List.mergeSort_of_pairwise (by decide +kernel)
    have walk : d.walk (start r.path) =
        [.ofString "././b/x.css", .ofString "././node_modules/m.css"] := by
      rw [Disk.walk, show d.place? (start r.path) = .ok [] by decide +kernel]
      simp only [files]
      decide +kernel
    rw [found_eq walk]
    decide +kernel
  have listed : sources (r.found d) = ["b/".toList, "node_modules/".toList] := by
    have each : (r.found d).stylesheets.filterMap (sourceOf? (r.found d).root) =
        ["b/".toList, "node_modules/".toList] := by
      rw [found]
      decide +kernel
    rw [sources, each, List.mergeSort_of_pairwise (by decide +kernel)]
    decide +kernel
  have wrote := write_of_newPlace (d := d) (p := Config.pathIn r.path) (a := []) (n := configName)
    (configText (sources (r.found d))) (by decide +kernel) (by decide +kernel) (by decide +kernel)
    (by decide +kernel)
  have run := run_eq (r := r) (s := ⟨d, []⟩) fresh
  simp only [wrote] at run
  obtain ⟨-, c, o, again, -, -, excludes, -, project, perm⟩ := run_finds_again (s := ⟨d, []⟩)
    (by decide +kernel) fresh (by rw [listed]; decide +kernel) run
  refine ⟨_, again, run, project, ?_⟩
  rw [found] at perm
  have left : ([.ofString "././b/x.css", .ofString "././node_modules/m.css"].filter fun f =>
      !c.isExcluded f.chars) = [Path.ofString "././b/x.css"] := by
    simp only [Config.isExcluded, excludes]
    decide +kernel
  simp only [left] at perm
  exact List.perm_singleton.mp perm

/-- A quotation mark in the name of a directory ends the text of the source. -/
theorem unreadable_of_quote : ∃ (r : InitRequest) (s t : State),
    s.disk.IsTree ∧ s.disk.has (Config.pathIn r.path) = false ∧
    sources (r.found s.disk) = ["a\"b/".toList] ∧ r.run s = (.ok (), t) ∧
    Config.load t.disk (Config.pathIn r.path) = .error .badConfig := by
  let d : Disk := ⟨[(["a\"b".toList], .directory),
    (["a\"b".toList, "x.css".toList], .file ".x \x7b\x7d")], []⟩
  let r : InitRequest := ⟨.ofString ".", false⟩
  have fresh : d.has (Config.pathIn r.path) = false := by decide +kernel
  have found : r.found d = ⟨r.path, .default, false, [.ofString "././a\"b/x.css"]⟩ := by
    have files : d.filesBelow [] = [["a\"b".toList, "x.css".toList]] :=
      List.mergeSort_singleton _
    have walk : d.walk (start r.path) = [.ofString "././a\"b/x.css"] := by
      rw [Disk.walk, show d.place? (start r.path) = .ok [] by decide +kernel]
      simp only [files]
      decide +kernel
    rw [found_eq walk]
    decide +kernel
  have listed : sources (r.found d) = ["a\"b/".toList] := by
    have each : (r.found d).stylesheets.filterMap (sourceOf? (r.found d).root) = ["a\"b/".toList] := by
      rw [found]
      decide +kernel
    rw [sources, each, List.mergeSort_singleton]
    decide +kernel
  have wrote := write_of_newPlace (d := d) (p := Config.pathIn r.path) (a := []) (n := configName)
    (configText (sources (r.found d))) (by decide +kernel) (by decide +kernel) (by decide +kernel)
    (by decide +kernel)
  have run := run_eq (r := r) (s := ⟨d, []⟩) fresh
  simp only [wrote] at run
  refine ⟨r, ⟨d, []⟩, _, by decide +kernel, fresh, listed, run, ?_⟩
  have unread : Config.ofChars? ((entries ["a\"b/".toList]).flatMap Yaml.Entry.text) = none := by
    decide +kernel
  have load : Config.ofText (configText (sources (r.found d))) = .error .badConfig := by
    rw [listed, ofText_configText_eq, unread]
  rw [Config.load, read_write wrote]
  exact load

end StyleExports.Command.InitRequest
