import StyleExports.Proofs.Command.ShownRequest
import StyleExports.Proofs.Discovery

namespace StyleExports

open Text Disk

theorem Disk.proper_of_extension {n e : List Char} (h : (Path.cutExtension n).2 = some e)
    (he : isStylesheetExtension e = true) : isNameless n = false := by
  cases hn : isNameless n with
  | false => rfl
  | true =>
    simp only [isNameless, Path.isTrivial, Bool.or_eq_true, beq_iff_eq] at hn
    obtain (rfl | rfl) | rfl := hn
    · cases h
    · cases h
    · obtain rfl := Option.some.inj h
      revert he
      decide

namespace Command

/-- The request that a build makes of a path is for a stylesheet at that path, with all that the
build asks for. -/
structure IsMeant (p : Path) (inline : Bool) : Prop where
  path : (Request.ofId (requestId p.text inline)).path = p.chars
  stylesheet : (Request.ofId (requestId p.text inline)).isStylesheet = true
  exports : (Request.ofId (requestId p.text inline)).wantsExports = true
  asked : (Request.ofId (requestId p.text inline)).isInline = inline
  plain : (Request.ofId (requestId p.text inline)).isVirtual = false
  scope : ∀ plugin : Plugin, plugin.inScope (requestId p.text inline) = true

/-- A path that a request can say: it has no character that ids give a meaning of their own, does
not begin like the id of a passed-through stylesheet, and nothing stands behind its file name. -/
structure IsRequestable (p : Path) : Prop where
  question : '?' ∉ p.chars
  backslash : '\\' ∉ p.chars
  plain : ¬virtualStem <+: p.chars
  last : p.parts.getLast? = p.fileName?

instance (p : Path) : Decidable (IsRequestable p) :=
  decidable_of_iff ('?' ∉ p.chars ∧ '\\' ∉ p.chars ∧ ¬virtualStem <+: p.chars ∧
    p.parts.getLast? = p.fileName?)
    ⟨fun ⟨question, backslash, plain, last⟩ => ⟨question, backslash, plain, last⟩,
      fun h => ⟨h.question, h.backslash, h.plain, h.last⟩⟩

/-- Only of a path without question marks and backslashes does a build's request have the path. -/
theorem path_ofId_requestId_iff {p : Path} {inline : Bool} :
    (Request.ofId (requestId p.text inline)).path = p.chars ↔ '?' ∉ p.chars ∧ '\\' ∉ p.chars := by
  have text : p.text.toList = p.chars := String.toList_ofList
  constructor
  · intro h
    obtain ⟨a, b, hs, question⟩ := List.eq_append_cons_of_mem
      (show '?' ∈ p.text.toList ++ ['?'] from List.mem_append_right _ List.mem_cons_self)
    rw [ofId_requestId_cut hs question inline] at h
    have path : a.map slashed = p.chars := h
    have same : a = p.chars := by
      rw [text] at hs
      refine (List.append_inj hs ?_).1.symm
      rw [← path, List.length_map]
    subst same
    refine ⟨question, fun mem => ?_⟩
    rw [← path] at mem
    obtain ⟨c, -, hc⟩ := List.mem_map.mp mem
    exact slashed_ne_backslash c hc
  · rintro ⟨question, backslash⟩
    rw [ofId_requestId (text.symm ▸ question) (text.symm ▸ backslash), text]

/-- A build's request for a stylesheet is the one that is meant if and only if a request can say its
path. -/
theorem isMeant_iff {p : Path} (h : Discovery.isStylesheet p = true) (inline : Bool) :
    IsMeant p inline ↔ IsRequestable p := by
  have text : p.text.toList = p.chars := String.toList_ofList
  obtain ⟨n, e, name, ext, he⟩ := Discovery.isStylesheet_iff.mp h
  constructor
  · intro meant
    obtain ⟨question, backslash⟩ := path_ofId_requestId_iff.mp meant.path
    have request := ofId_requestId (text.symm ▸ question) (text.symm ▸ backslash) inline
    rw [text] at request
    have plain := meant.plain
    rw [request, ← Bool.not_eq_true, isVirtual_iff] at plain
    obtain ⟨s, last⟩ : ∃ s, p.parts.getLast? = some s :=
      ⟨_, List.getLast?_eq_some_getLast p.parts_ne_nil⟩
    obtain ⟨e', ext', he'⟩ := Request.isStylesheet_iff.mp meant.stylesheet
    rw [request, Request.fileName, lastName_eq backslash last] at ext'
    obtain ⟨cs, whole⟩ := Path.components_of_last last
      (component?_of_named (proper_of_extension ext' he'))
    exact ⟨question, backslash, plain, by rw [last, Path.fileName?, whole]; simp⟩
  · intro able
    have request := ofId_requestId (text.symm ▸ able.question) (text.symm ▸ able.backslash) inline
    rw [text] at request
    have last := able.last.trans name
    have scope := inScope_requestId able.question able.backslash last ext he able.plain
    refine ⟨path_ofId_requestId_iff.mpr ⟨able.question, able.backslash⟩, ?_, ?_, ?_, ?_,
      fun plugin => scope plugin inline⟩
    · rw [request]
      refine Request.isStylesheet_iff.mpr ⟨e, ?_, he⟩
      rw [Request.fileName, lastName_eq able.backslash last]
      exact ext
    · rw [request, wantsExports_query]
    · rw [request, isInline_query]
    · rw [request, ← Bool.not_eq_true, isVirtual_iff]
      exact able.plain

theorem isMeant_nested : IsMeant (.ofString "x/a.module.scss") true :=
  (isMeant_iff (by decide) true).mpr (by decide +kernel)

/-- A question mark in the name of a stylesheet cuts its request short, and what is written as its
module is the text of the stylesheet. -/
theorem not_meant_of_question : ∃ (r : BuildRequest) (s t : State),
    (r.discover s.disk .default).stylesheets = [.ofString "a?b.css"] ∧
    Discovery.isStylesheet (.ofString "a?b.css") = true ∧
    (∀ plugin : Plugin, plugin.inScope (requestId "a?b.css" false) = false) ∧
    ¬IsMeant (.ofString "a?b.css") false ∧ r.run s = (.ok (), t) ∧
    t.disk.entryAt? ["dist".toList, "a?b.js".toList] = some (.file ".a \x7b\x7d") := by
  let r : BuildRequest := ⟨[.ofString "a?b.css"], none, false, none⟩
  let d : Disk := ⟨[(["a?b.css".toList], .file ".a \x7b\x7d")], []⟩
  have scope (plugin : Plugin) : plugin.inScope (requestId "a?b.css" false) = false := by
    have other : (Request.ofId (requestId "a?b.css" false)).isStylesheet = false := by decide +kernel
    rw [Plugin.inScope]
    simp only [other, Bool.false_and]
  have ends : (r.run ⟨d, []⟩).1 = .ok () := by decide +kernel
  refine ⟨r, ⟨d, []⟩, (r.run ⟨d, []⟩).2, by decide +kernel, by decide +kernel, scope, ?_,
    Prod.ext ends rfl, by decide +kernel⟩
  intro meant
  have asked := meant.scope ⟨.default, Compiler.stageName⟩
  rw [show (Path.ofString "a?b.css").text = "a?b.css" by decide, scope] at asked
  cases asked

end Command

end StyleExports
