import StyleExports.Command.Build
import StyleExports.Proofs.Disk.Landing

namespace StyleExports

open Text Disk

namespace Disk

def Component.name? : Component → Option (List Char)
  | .name s => some s
  | _ => none

namespace Path

theorem isName_of_mem {p : Path} {s : List Char} (h : .name s ∈ p.components) : IsName s := by
  obtain ⟨t, ps, hp⟩ := List.exists_cons_of_ne_nil p.parts_ne_nil
  have named {t : List Char} (ht : t ∈ p.parts) (hc : component? t = some (.name s)) : IsName s := by
    obtain ⟨rfl, proper, ne_up⟩ := component?_eq_name hc
    exact ⟨proper, ne_up, slash_not_mem ht⟩
  rw [components_of_parts hp, List.mem_append, Option.mem_toList, List.mem_filterMap] at h
  rcases h with h | ⟨t, ht, hc⟩
  · unfold firstComponent? at h
    split at h
    · split at h <;> simp at h
    split at h
    · simp at h
    · exact named (hp ▸ List.mem_cons_self) h
  · exact named (hp ▸ List.mem_cons_of_mem _ ht) hc

/-- A path of names is relative, and each of its parts says what it says in front. -/
theorem components_of_names {q : Path} {ns : List (List Char)} (h : q.components = ns.map .name) :
    q.isAbsolute = false ∧ q.parts.filterMap component? = q.components := by
  constructor
  · rw [← Bool.not_eq_true, isAbsolute_iff_head, h]
    cases ns <;> simp
  · rw [filterMap_parts, h]
    refine List.filter_eq_self.mpr fun c hc => ?_
    obtain ⟨n, -, rfl⟩ := List.mem_map.mp hc
    rfl

theorem components_join_names {p q : Path} {ns : List (List Char)}
    (h : q.components = ns.map .name) : (p.join q).components = p.components ++ q.components := by
  obtain ⟨relative, same⟩ := components_of_names h
  by_cases hp : p.chars = []
  · rw [join_of_nil hp, components_eq_nil.mpr hp, List.nil_append]
  · rw [components_join hp relative, same]

theorem cutLast?_append {p : Char → Bool} {s a b : List Char} (h : cutLast? p s = some (a, b)) :
    ∃ c, p c = true ∧ s = a ++ c :: b := by
  induction s generalizing a with
  | nil => simp [cutLast?] at h
  | cons d s ih =>
    unfold cutLast? at h
    split at h
    · rename_i a' b' hs
      simp only [Option.some.injEq, Prod.mk.injEq] at h
      obtain ⟨rfl, rfl⟩ := h
      obtain ⟨c, hc, rfl⟩ := ih hs
      exact ⟨c, hc, rfl⟩
    · split at h
      · rename_i hd
        simp only [Option.some.injEq, Prod.mk.injEq] at h
        exact ⟨d, hd, by rw [← h.1, ← h.2, List.nil_append]⟩
      · simp at h

theorem stem_spec (name : List Char) (hn : name ≠ []) :
    (cutExtension name).1 ≠ [] ∧ (cutExtension name).1 <+: name := by
  unfold cutExtension
  split
  · exact ⟨hn, List.prefix_rfl⟩
  · rename_i stem e hne hs
    obtain ⟨c, -, rfl⟩ := cutLast?_append hs
    exact ⟨hne, List.prefix_append _ _⟩
  · exact ⟨hn, List.prefix_rfl⟩

end Path

end Disk

namespace Command

theorem outputName_ne_nil (f : Path) : outputName f ≠ [] ∧ '/' ∉ outputName f := by
  unfold outputName Path.stem?
  cases hf : f.fileName? with
  | none => decide
  | some name =>
    obtain ⟨cs, hcs⟩ := Path.fileName?_eq_some hf
    have named : IsName name := Path.isName_of_mem (p := f) (by simp [hcs])
    have ne_nil : name ≠ [] := by
      rintro rfl
      exact absurd named.proper (by decide)
    obtain ⟨proper, start⟩ := Path.stem_spec name ne_nil
    exact ⟨proper, fun h => named.slash (start.subset h)⟩

theorem isName_outputName {f : Path} (dot : outputName f ≠ ['.']) (up : outputName f ≠ ['.', '.']) :
    IsName (outputName f) := by
  obtain ⟨proper, slash⟩ := outputName_ne_nil f
  exact ⟨by simp [Path.isTrivial, proper, dot], up, slash⟩

theorem isName_output (f : Path) {e : List Char} (he : '/' ∉ e) (hl : 2 < e.length) :
    IsName (outputName f ++ e) := by
  have long : 2 < (outputName f ++ e).length := by
    rw [List.length_append]
    omega
  refine ⟨?_, fun hu => ?_, ?_⟩
  · simp only [Path.isTrivial, Bool.or_eq_false_iff, beq_eq_false_iff_ne]
    constructor <;> intro hn <;> rw [hn] at long <;> simp at long
  · rw [hu] at long
    simp at long
  · simpa using ⟨(outputName_ne_nil f).2, he⟩

namespace Planned

/-- What stands between the root and a stylesheet. A stylesheet that is not below the root is
planned at the top. -/
def between (root f : Path) : List Component :=
  if root.components.isPrefixOf f.components then
    (f.components.drop root.components.length).dropLast
  else []

/-- The directories below the output directory that lead to what comes of a stylesheet. -/
def directories (root f : Path) : List (List Char) := (between root f).filterMap Component.name?

/-- A stylesheet with nothing but names between it and the root, and with a name of its own. -/
structure IsPlaced (root f : Path) : Prop where
  names : ∀ c ∈ between root f, ∃ s, c = .name s
  dot : outputName f ≠ ['.']
  up : outputName f ≠ ['.', '.']

/-- A plan whose target is a relative path of names and ends in that of the stylesheet. -/
def IsBelow (p : Planned) : Prop :=
  ∃ ns : List (List Char), p.target.components = (ns ++ [outputName p.file]).map .name

/-- The place of an output of a stylesheet, as seen from the output directory's. -/
def outputPlace (root : Path) (out : Place) (f : Path) (ending : List Char) : Place :=
  out ++ directories root f ++ [outputName f ++ ending]

theorem IsPlaced.between_eq {root f : Path} (h : IsPlaced root f) :
    between root f = (directories root f).map .name := by
  unfold directories
  have all := h.names
  generalize between root f = cs at all
  induction cs with
  | nil => rfl
  | cons c cs ih =>
    obtain ⟨s, rfl⟩ := all c List.mem_cons_self
    have rest := ih fun d hd => all d (List.mem_cons_of_mem _ hd)
    rw [List.filterMap_cons, Component.name?, List.map_cons, ← rest]

theorem components_directory (root f : Path) :
    (((root.strip? f).bind Path.parent?).getD ⟨[]⟩).components = between root f := by
  have empty : (⟨[]⟩ : Path).components = [] := rfl
  unfold between
  cases hs : root.strip? f with
  | none =>
    have apart : ¬root.components.isPrefixOf f.components := by
      intro h
      unfold Path.strip? at hs
      rw [if_pos h] at hs
      split at hs
      · simp at hs
      · split at hs <;> simp at hs
      · simp at hs
    rw [if_neg apart]
    rfl
  | some q =>
    obtain ⟨start, rest⟩ := Path.components_strip? hs
    rw [if_pos (List.isPrefixOf_iff_prefix.mpr start), ← rest, Option.bind_some]
    cases hq : q.parent? with
    | some d => exact Path.components_parent? hq
    | none =>
      rcases Path.components_of_parent?_eq_none hq with h | h <;> rw [h] <;> rfl

theorem components_target {root f : Path} (h : IsName (outputName f)) :
    (ofFile root f).target.components = between root f ++ [.name (outputName f)] := by
  rw [← components_directory]
  exact Path.components_join_name h _

/-- Exactly the stylesheets that are placed have a target that names a file below the output
directory. -/
theorem target_isBelow_iff (root f : Path) : (ofFile root f).IsBelow ↔ IsPlaced root f := by
  constructor
  · rintro ⟨ns, h⟩
    have last : .name (outputName f) ∈ (ofFile root f).target.components := by
      rw [h, List.map_append]
      exact List.mem_append_right _ List.mem_cons_self
    have named := Path.isName_of_mem last
    rw [components_target named, List.map_append] at h
    have same := List.append_inj_left' h rfl
    refine ⟨fun c hc => ?_, ?_, named.ne_up⟩
    · rw [same] at hc
      obtain ⟨s, -, rfl⟩ := List.mem_map.mp hc
      exact ⟨s, rfl⟩
    · intro hd
      have proper := named.proper
      rw [hd] at proper
      exact absurd proper (by decide)
  · intro h
    refine ⟨directories root f, ?_⟩
    rw [components_target (isName_outputName h.dot h.up), h.between_eq, List.map_append]
    rfl

theorem addAll_eq_ok {shown : Path → String} {root : Path} {plan plan' : List Planned}
    {fs : List Path} (h : addAll shown root plan fs = .ok plan')
    (apart : plan.Pairwise fun p q => p.target.same q.target = false) :
    plan' = plan ++ fs.map (ofFile root) ∧
      plan'.Pairwise fun p q => p.target.same q.target = false := by
  induction fs generalizing plan with
  | nil =>
    obtain rfl := Except.ok.inj h
    exact ⟨(List.append_nil _).symm, apart⟩
  | cons f fs ih =>
    unfold addAll at h
    dsimp only at h
    split at h
    · simp at h
    · rename_i new
      have apart' : (plan ++ [ofFile root f]).Pairwise fun p q => p.target.same q.target = false := by
        rw [List.pairwise_append]
        refine ⟨apart, List.pairwise_singleton _ _, fun p hp q hq => ?_⟩
        obtain rfl := List.mem_singleton.mp hq
        simpa using List.find?_eq_none.mp new p hp
      obtain ⟨all, apart'⟩ := ih h apart'
      exact ⟨by rw [all, List.map_cons, List.append_assoc, List.singleton_append], apart'⟩

/-- A plan has an entry for each stylesheet, and no two with one target. -/
theorem ofDiscovery_eq_ok {shown : Path → String} {x : Discovery} {plan : List Planned}
    (h : ofDiscovery shown x = .ok plan) :
    (∃ fs : List Path, fs.Perm x.stylesheets ∧ plan = fs.map (ofFile x.root)) ∧
      x.stylesheets.Pairwise fun f g =>
        (ofFile x.root f).target.components ≠ (ofFile x.root g).target.components := by
  unfold ofDiscovery at h
  cases hp : addAll shown x.root [] x.stylesheets with
  | error e => rw [hp] at h; simp [Except.map] at h
  | ok all =>
    rw [hp] at h
    obtain ⟨rfl, apart⟩ := addAll_eq_ok hp List.Pairwise.nil
    rw [List.nil_append] at h apart
    obtain rfl := Except.ok.inj h
    have perm := List.mergeSort_perm (x.stylesheets.map (ofFile x.root))
      fun p q => p.target.le q.target
    have files : (x.stylesheets.map (ofFile x.root)).map Planned.file = x.stylesheets := by
      rw [List.map_map]
      exact List.map_id _
    refine ⟨⟨_, files ▸ perm.map Planned.file, ?_⟩, ?_⟩
    · rw [List.map_map]
      refine (List.map_id _).symm.trans (List.map_congr_left fun p hp => ?_)
      obtain ⟨f, -, rfl⟩ := List.mem_map.mp (perm.mem_iff.mp hp)
      rfl
    · rw [List.pairwise_map] at apart
      exact apart.imp fun hs => by simpa [Path.same] using hs

theorem landing_output {root f : Path} (h : IsPlaced root f) (d : Disk) (out : Path)
    {ending : List Char} (he : '/' ∉ ending) (hl : 2 < ending.length) :
    d.landing (((out.join (ofFile root f).target).parent?.getD (.ofString ".")).join
      ⟨outputName f ++ ending⟩) = outputPlace root (d.landing out) f ending := by
  obtain ⟨ns, target⟩ := (target_isBelow_iff root f).mpr h
  have named := isName_outputName h.dot h.up
  have joined : (out.join (ofFile root f).target).components =
      out.components ++ between root f ++ [.name (outputName f)] := by
    rw [Path.components_join_names target, components_target named, List.append_assoc]
  have directory : ((out.join (ofFile root f).target).parent?.getD (.ofString ".")).components =
      out.components ++ (directories root f).map .name := by
    cases hp : (out.join (ofFile root f).target).parent? with
    | some q =>
      rw [Option.getD_some, Path.components_parent? hp, joined, List.dropLast_concat, h.between_eq]
    | none =>
      rcases Path.components_of_parent?_eq_none hp with hn | hn
      · simp [joined] at hn
      · have := congrArg List.getLast? (joined.symm.trans hn)
        simp at this
  rw [landing, Path.components_join_name (isName_output f he hl), directory, leadAll_append, leadAll_append,
    leadAll_names]
  rfl

/-- Stylesheets that are placed and have targets of their own have outputs of their own. -/
theorem outputPlace_ne {root f g : Path} (hf : IsPlaced root f) (hg : IsPlaced root g)
    (h : (ofFile root f).target.components ≠ (ofFile root g).target.components) (out : Place)
    (ending : List Char) : outputPlace root out f ending ≠ outputPlace root out g ending := by
  intro same
  apply h
  rw [components_target (isName_outputName hf.dot hf.up),
    components_target (isName_outputName hg.dot hg.up), hf.between_eq, hg.between_eq]
  obtain ⟨dirs, names⟩ := List.append_inj' same rfl
  rw [List.append_cancel_left dirs, List.append_cancel_right (List.singleton_inj.mp names)]

theorem outputPlace_js_ne_css (root f g : Path) (out : Place) :
    outputPlace root out f ".js".toList ≠ outputPlace root out g ".export.css".toList := by
  intro same
  obtain ⟨-, names⟩ := List.append_inj' same rfl
  have backwards := congrArg List.reverse (List.singleton_inj.mp names)
  simp at backwards

end Planned

end Command

end StyleExports
