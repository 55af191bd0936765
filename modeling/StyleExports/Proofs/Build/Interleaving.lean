import Mathlib.Data.List.Nodup
import StyleExports.Proofs.Build.Lifecycle

namespace StyleExports

/-- A file of a build: its request, its stylesheet, and the module that is compiled from it. -/
structure SourceFile where
  id : String
  css : String
  code : String
  deriving DecidableEq, Repr

namespace SourceFile

def request (f : SourceFile) : Request := .ofId f.id

def first (f : SourceFile) : Action := .extract f.id f.css

def second (f : SourceFile) : Action := .finalize f.id f.code

def calls (f : SourceFile) : List Action := [f.first, f.second]

/-- What the second phase answers when a file is the only one of its build. -/
def alone (p : Plugin) (f : SourceFile) : Result String :=
  (p.finalize f.id f.code (contextAfter p [f.first] .fresh)).1

end SourceFile

open SourceFile (first second request)

/-- The phases of some files in an order in which each file goes through its own phases in turn. -/
structure IsInterleaving (files : List SourceFile) (as : List Action) : Prop where
  perm : as.Perm (files.flatMap SourceFile.calls)
  ordered : ∀ f ∈ files, f.calls.Sublist as

namespace Action

def isFor (id : String) : Action → Bool
  | .extract k _ => k == id
  | .finalize k _ => k == id
  | _ => false

/-- Whether an action is a first phase that keeps a stylesheet under a certain virtual id. -/
def keeps (v : String) : Action → Bool
  | .extract id _ => (Request.ofId id).isInline = false ∧ (Request.ofId id).virtualId = v
  | _ => false

end Action

section

variable {p : Plugin} {x y : BuildContext} {id v : String} {f : SourceFile} {a : Action}

/-- What an action does to a part of the build context that only certain actions change. -/
theorem contextAfter_filter {α : Type} (part : BuildContext → α) (q : Action → Bool)
    {as : List Action}
    (same : ∀ a ∈ as, q a = true → ∀ x y, part x = part y → part (a.act p x) = part (a.act p y))
    (other : ∀ a ∈ as, q a = false → ∀ x, part (a.act p x) = part x) (h : part x = part y) :
    part (contextAfter p as x) = part (contextAfter p (as.filter q) y) := by
  induction as generalizing x y with
  | nil => exact h
  | cons a as ih =>
    have rest {x y : BuildContext} := @ih x y (fun b hb => same b (List.mem_cons_of_mem a hb))
      fun b hb => other b (List.mem_cons_of_mem a hb)
    cases ha : q a with
    | true =>
      rw [List.filter_cons_of_pos ha]
      exact rest (same a List.mem_cons_self ha x y h)
    | false =>
      rw [List.filter_cons_of_neg (by simp [ha])]
      exact rest ((other a List.mem_cons_self ha x).trans h)

theorem results_extract_of_ne {k : String} (h : k ≠ id) (css : String) :
    (p.extract id css x).2.results k = x.results k := by
  unfold Plugin.extract
  split
  · exact Plugin.results_remember h _
  · rfl

theorem results_extract (css : String) : (p.extract id css x).2.results id =
    if p.inScope id then some (p.extraction css).extract else x.results id := by
  unfold Plugin.extract Plugin.remember
  split <;> simp

theorem stylesheets_extract (css : String) : (p.extract id css x).2.stylesheets v =
    if p.inScope id && (Action.extract id css).keeps v then
      some (p.extraction css).extract.passthrough
    else x.stylesheets v := by
  unfold Plugin.extract Action.keeps
  cases p.inScope id with
  | false => simp
  | true => simp [Plugin.stylesheets_remember]

theorem finalize_congr (h : x.results id = y.results id) (code : String) :
    (p.finalize id code x).1 = (p.finalize id code y).1 := by
  unfold Plugin.finalize
  rw [h]
  cases y.results id <;> rfl

theorem results_contextAfter {as : List Action} (calls : ∀ a ∈ as, ∃ f : SourceFile, a ∈ f.calls)
    (h : x.results id = y.results id) : (contextAfter p as x).results id =
      (contextAfter p (as.filter (Action.isFor id)) y).results id := by
  refine contextAfter_filter (·.results id) _ (fun a ha hq x y h => ?_) (fun a ha hq x => ?_) h <;>
    obtain ⟨f, hf⟩ := calls a ha <;>
    rcases List.mem_pair.mp hf with rfl | rfl
  · obtain rfl : f.id = id := by simpa [Action.isFor, first] using hq
    simp only [Action.act, first, results_extract, h]
  · obtain rfl : f.id = id := by simpa [Action.isFor, second] using hq
    simp only [Action.act, second, Plugin.context_finalize, BuildContext.results_drop_self]
  · have ne : id ≠ f.id := Ne.symm (by simpa [Action.isFor, first] using hq)
    exact results_extract_of_ne ne f.css
  · have ne : id ≠ f.id := Ne.symm (by simpa [Action.isFor, second] using hq)
    simp only [Action.act, second, Plugin.context_finalize, BuildContext.results_drop_of_ne ne]

theorem stylesheets_contextAfter {as : List Action} (calls : ∀ a ∈ as, ∃ f : SourceFile, a ∈ f.calls)
    (h : x.stylesheets v = y.stylesheets v) : (contextAfter p as x).stylesheets v =
      (contextAfter p (as.filter (Action.keeps v)) y).stylesheets v := by
  refine contextAfter_filter (·.stylesheets v) _ (fun a ha hq x y h => ?_) (fun a ha hq x => ?_) h <;>
    obtain ⟨f, hf⟩ := calls a ha <;>
    rcases List.mem_pair.mp hf with rfl | rfl
  · simp only [Action.act, first, stylesheets_extract, h]
  · simp [Action.keeps, second] at hq
  · simp only [Action.act, first, stylesheets_extract] at hq ⊢
    simp [hq]
  · simp only [Action.act, second, Plugin.context_finalize, BuildContext.stylesheets_drop]

end

theorem SourceFile.keeps_first (f : SourceFile) (hi : f.request.isInline = false) :
    f.first.keeps f.request.virtualId = true := by
  have inline : (Request.ofId f.id).isInline = false := hi
  simp [first, Action.keeps, request, inline]

theorem flatMap_eq_of_only {α β : Type} {l : List α} {f : α → List β} {a : α} (ha : a ∈ l)
    (hn : l.Nodup) (h : ∀ b ∈ l, b ≠ a → f b = []) : l.flatMap f = f a := by
  obtain ⟨s, t, rfl⟩ := List.append_of_mem ha
  have apart := List.nodup_middle.mp hn
  have none (b : α) (hb : b ∈ s ++ t) : f b = [] := by
    refine h b (by simpa [or_left_comm] using .inr (List.mem_append.mp hb)) ?_
    rintro rfl
    exact (List.nodup_cons.mp apart).1 hb
  rw [List.flatMap_append, List.flatMap_cons,
    List.flatMap_eq_nil_iff.mpr fun b hb => none b (List.mem_append_left t hb),
    List.flatMap_eq_nil_iff.mpr fun b hb => none b (List.mem_append_right s hb),
    List.nil_append, List.append_nil]

namespace IsInterleaving

variable {p : Plugin} {files : List SourceFile} {as : List Action} {f : SourceFile}

theorem calls (h : IsInterleaving files as) {a : Action} (ha : a ∈ as) :
    ∃ f ∈ files, a ∈ f.calls :=
  List.mem_flatMap.mp (h.perm.mem_iff.mp ha)

/-- Among the phases of files with different requests, those of one request are its two. -/
theorem filter_isFor (h : IsInterleaving files as) (apart : (files.map SourceFile.id).Nodup)
    (hf : f ∈ files) : as.filter (Action.isFor f.id) = f.calls := by
  have own : f.calls.filter (Action.isFor f.id) = f.calls := by
    simp [SourceFile.calls, first, second, Action.isFor]
  have others (g : SourceFile) (hg : g ∈ files) (hn : g ≠ f) :
      g.calls.filter (Action.isFor f.id) = [] := by
    have ne : g.id ≠ f.id := fun he => hn (List.inj_on_of_nodup_map apart hg hf he)
    simp [SourceFile.calls, first, second, Action.isFor, ne]
  have all : (files.flatMap SourceFile.calls).filter (Action.isFor f.id) = f.calls := by
    rw [List.filter_flatMap, flatMap_eq_of_only hf (List.Nodup.of_map _ apart) others, own]
  have sub := (h.ordered f hf).filter (Action.isFor f.id)
  have len := (h.perm.filter (Action.isFor f.id)).length_eq
  rw [own] at sub
  rw [all] at len
  exact (sub.eq_of_length len.symm).symm

/-- Among the phases of files of which one alone has a virtual id, only its first phase keeps a
stylesheet under it. -/
theorem filter_keeps (h : IsInterleaving files as) (apart : (files.map SourceFile.id).Nodup)
    (hf : f ∈ files) (hi : f.request.isInline = false)
    (hv : ∀ g ∈ files, g ≠ f → g.request.virtualId ≠ f.request.virtualId) :
    as.filter (Action.keeps f.request.virtualId) = [f.first] := by
  have own : f.calls.filter (Action.keeps f.request.virtualId) = [f.first] := by
    have inline : (Request.ofId f.id).isInline = false := hi
    simp [SourceFile.calls, first, second, Action.keeps, request, inline]
  have others (g : SourceFile) (hg : g ∈ files) (hn : g ≠ f) :
      g.calls.filter (Action.keeps f.request.virtualId) = [] := by
    have ne : (Request.ofId g.id).virtualId ≠ f.request.virtualId := hv g hg hn
    simp [SourceFile.calls, first, second, Action.keeps, ne]
  have all := h.perm.filter (Action.keeps f.request.virtualId)
  rw [List.filter_flatMap, flatMap_eq_of_only hf (List.Nodup.of_map _ apart) others, own] at all
  exact List.perm_singleton.mp all

theorem filter_isFor_of_not_mem (h : IsInterleaving files as) {id : String}
    (hid : id ∉ files.map SourceFile.id) : as.filter (Action.isFor id) = [] := by
  refine List.filter_eq_nil_iff.mpr fun a ha => ?_
  obtain ⟨f, hf, hc⟩ := h.calls ha
  have ne : f.id ≠ id := by
    intro he
    exact hid (he ▸ List.mem_map_of_mem hf)
  rcases List.mem_pair.mp hc with rfl | rfl <;> simp [first, second, Action.isFor, ne]

section

variable {before rest : List Action}

theorem filter_isFor_before (h : IsInterleaving files as) (apart : (files.map SourceFile.id).Nodup)
    (hf : f ∈ files) (he : as = before ++ f.second :: rest) :
    before.filter (Action.isFor f.id) = [f.first] := by
  have phases := h.filter_isFor apart hf
  rw [he, List.filter_append, List.filter_cons_of_pos (by simp [second, Action.isFor])] at phases
  cases hb : before.filter (Action.isFor f.id) with
  | nil => simp [hb, SourceFile.calls, first, second] at phases
  | cons a bs =>
    rw [hb, List.cons_append, SourceFile.calls, List.cons.injEq] at phases
    have last : bs ++ f.second :: rest.filter (Action.isFor f.id) = [] ++ [f.second] := phases.2
    have len := congrArg List.length last
    obtain rfl : bs = [] := List.eq_nil_of_length_eq_zero (by simp at len; omega)
    rw [phases.1]

/-- From its first phase on, a file that shares its virtual id with no other is the one that has kept
a stylesheet under it. -/
theorem filter_keeps_before (h : IsInterleaving files as) (apart : (files.map SourceFile.id).Nodup)
    (hf : f ∈ files) (hi : f.request.isInline = false)
    (hv : ∀ g ∈ files, g ≠ f → g.request.virtualId ≠ f.request.virtualId)
    (he : as = before ++ rest) (hb : f.first ∈ before) :
    before.filter (Action.keeps f.request.virtualId) = [f.first] := by
  have kept := h.filter_keeps apart hf hi hv
  rw [he, List.filter_append] at kept
  have mem : f.first ∈ before.filter (Action.keeps f.request.virtualId) :=
    List.mem_filter.mpr ⟨hb, f.keeps_first hi⟩
  rcases List.append_eq_singleton_iff.mp kept with ⟨hn, -⟩ | ⟨hs, -⟩
  · simp [hn] at mem
  · exact hs

end

end IsInterleaving

namespace Plugin

/-- Files with different requests, built together in any order: every second phase answers, in success
and in failure, as if its file were the only one; in the end nothing waits; and a file that does not
come inline and shares its virtual id with no other finds its own stylesheet there, from its first
phase on. -/
theorem finalize_interleaved {p : Plugin} {files : List SourceFile} {as : List Action}
    (scope : ∀ f ∈ files, p.inScope f.id = true) (apart : (files.map SourceFile.id).Nodup)
    (h : IsInterleaving files as) :
    (∀ f ∈ files, ∀ before rest, as = before ++ f.second :: rest →
      (p.finalize f.id f.code (contextAfter p before .fresh)).1 = f.alone p) ∧
    (∀ id, (contextAfter p as .fresh).results id = none) ∧
    ∀ f ∈ files, f.request.isInline = false →
      (∀ g ∈ files, g ≠ f → g.request.virtualId ≠ f.request.virtualId) →
      ∀ before rest, as = before ++ rest → f.first ∈ before →
        load? f.request.virtualId (contextAfter p before .fresh) =
          some (p.extraction f.css).extract.passthrough := by
  have calls {bs : List Action} (hb : bs ⊆ as) : ∀ a ∈ bs, ∃ f : SourceFile, a ∈ f.calls := by
    intro a ha
    obtain ⟨f, -, hf⟩ := h.calls (hb ha)
    exact ⟨f, hf⟩
  refine ⟨fun f hf before rest he => ?_, fun id => ?_, fun f hf hi hv before rest he hb => ?_⟩
  · have waits : (contextAfter p before .fresh).results f.id =
        (contextAfter p (before.filter (Action.isFor f.id)) .fresh).results f.id :=
      results_contextAfter (calls (he ▸ List.subset_append_left before _)) rfl
    rw [h.filter_isFor_before apart hf he] at waits
    exact finalize_congr waits f.code
  · rw [results_contextAfter (calls (List.Subset.refl as)) rfl]
    by_cases hid : id ∈ files.map SourceFile.id
    · obtain ⟨f, hf, rfl⟩ := List.mem_map.mp hid
      rw [h.filter_isFor apart hf]
      change ((p.finalize f.id f.code _).2).results f.id = none
      rw [context_finalize, BuildContext.results_drop_self]
    · rw [h.filter_isFor_of_not_mem hid]
      rfl
  · have own : (Action.extract f.id f.css).keeps f.request.virtualId = true := f.keeps_first hi
    change (contextAfter p before .fresh).stylesheets f.request.virtualId = _
    rw [stylesheets_contextAfter (calls (he ▸ List.subset_append_left before _)) rfl,
      h.filter_keeps_before apart hf hi hv he hb]
    change (p.extract f.id f.css .fresh).2.stylesheets f.request.virtualId = _
    rw [stylesheets_extract, scope f hf, own]
    rfl

/-- Among three files one cannot be finished, and fails as it does alone. -/
theorem finalize_interleaved_failing : ∃ (p : Plugin) (f g h : SourceFile)
    (as before rest : List Action),
    IsInterleaving [f, g, h] as ∧ as = before ++ g.second :: rest ∧
    (p.finalize g.id g.code (contextAfter p before .fresh)).1 = g.alone p ∧
    (g.alone p).toOption = none ∧ (f.alone p).toOption.isSome ∧
    (∀ id, (contextAfter p as .fresh).results id = none) ∧
    load? f.request.virtualId (contextAfter p as .fresh) =
      some (p.extraction f.css).extract.passthrough := by
  let p : Plugin := ⟨Options.default, Compiler.stageName⟩
  let f : SourceFile := ⟨"a.css?export", ":export \x7b b: 1 \x7d .x \x7b\x7d", "export default 1;"⟩
  let g : SourceFile := ⟨"b.css?export", ".y \x7b\x7d", "export default \x7d"⟩
  let h : SourceFile := ⟨"c.css?inline&export", ":export \x7b c: 2 \x7d", "export default 2;"⟩
  let as := [f.first, g.first, g.second, h.first, f.second, h.second]
  have order : IsInterleaving [f, g, h] as := by
    refine ⟨(@List.perm_middle _ f.second [g.first, g.second, h.first] [h.second]).cons f.first, ?_⟩
    have head {l : List Action} {a b : Action} (hb : b ∈ l) : [a, b].Sublist (a :: l) :=
      (List.singleton_sublist.mpr hb).cons_cons a
    simp only [List.forall_mem_cons]
    refine ⟨head (by simp), (head (by simp)).cons _, ?_, by simp⟩
    exact (((head (by simp)).cons _).cons _).cons _
  have scope : ∀ e ∈ [f, g, h], p.inScope e.id = true := by decide +kernel
  have apart : ([f, g, h].map SourceFile.id).Nodup := by decide
  obtain ⟨answers, idle, loads⟩ := finalize_interleaved scope apart order
  refine ⟨p, f, g, h, as, [f.first, g.first], [h.first, f.second, h.second], order, rfl,
    answers g (by simp) _ _ rfl, by decide +kernel, by decide +kernel, idle, ?_⟩
  exact loads f (by simp) (by decide +kernel) (by decide +kernel) as [] (by simp) (by simp [as])

end Plugin

end StyleExports
