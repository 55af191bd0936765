import StyleExports.Build.Plugin
import StyleExports.Command.Build
import StyleExports.Proofs.Disk.Landing

namespace StyleExports

open Text Disk

namespace Disk

namespace Path

theorem components_of_last {p : Path} {s : List Char} {c : Component}
    (hs : p.parts.getLast? = some s) (hc : component? s = some c) : ∃ cs, p.components = cs ++ [c] := by
  obtain ⟨ps, hp⟩ := List.getLast?_eq_some_iff.mp hs
  have proper : isTrivial s = false := by
    cases ht : isTrivial s with
    | false => rfl
    | true => rw [component?_of_trivial ht] at hc; cases hc
  cases ps with
  | nil =>
    have hne : s ≠ [] ∧ s ≠ ['.'] := by
      simpa only [isTrivial, Bool.or_eq_false_iff, beq_eq_false_iff_ne] using proper
    refine ⟨[], ?_⟩
    rw [components_of_parts hp, firstComponent?, if_neg hne.1, if_neg hne.2, hc]
    rfl
  | cons t ps =>
    rw [List.cons_append] at hp
    refine ⟨(firstComponent? t true).toList ++ ps.filterMap component?, ?_⟩
    rw [components_of_parts hp, List.filterMap_append, List.filterMap_cons, hc, List.append_assoc]
    cases ps <;> rfl

theorem last_of_components {p : Path} {s n : List Char} {cs : List Component}
    (hs : p.parts.getLast? = some s) (proper : isTrivial s = false)
    (hn : p.components = cs ++ [.name n]) : s = n := by
  obtain ⟨c, hc⟩ := component?_isSome proper
  obtain ⟨ds, hd⟩ := components_of_last hs hc
  have same := (List.append_inj' (hd.symm.trans hn) rfl).2
  rw [List.singleton_inj.mp same] at hc
  exact (component?_eq_name hc).1

theorem mem_chars_of_parts {p : Path} {s : List Char} {c : Char} (hs : s ∈ p.parts) (hc : c ∈ s) :
    c ∈ p.chars := by
  rw [← ofParts_parts p]
  unfold ofParts
  generalize p.parts = ps at hs ⊢
  induction ps with
  | nil => simp at hs
  | cons t ps ih =>
    cases ps with
    | nil =>
      obtain rfl := List.mem_singleton.mp hs
      exact hc
    | cons u ps =>
      simp only [Text.join, List.mem_append]
      rcases List.mem_cons.mp hs with rfl | hs
      · exact .inl (.inl hc)
      · exact .inr (ih hs)

theorem mem_chars_ofParts {ps : List (List Char)} {c : Char} (h : c ∈ (ofParts ps).chars) :
    c = '/' ∨ ∃ s ∈ ps, c ∈ s := by
  unfold ofParts at h
  induction ps with
  | nil => simp [Text.join] at h
  | cons t ps ih =>
    cases ps with
    | nil => exact .inr ⟨t, List.mem_cons_self, h⟩
    | cons u ps =>
      simp only [Text.join, List.mem_append, List.mem_singleton] at h
      rcases h with (h | h) | h
      · exact .inr ⟨t, List.mem_cons_self, h⟩
      · exact .inl h
      · rcases ih h with h | ⟨s, hs, hc⟩
        · exact .inl h
        · exact .inr ⟨s, List.mem_cons_of_mem _ hs, hc⟩

/-- The rest of a path behind one that says something is made of last parts of the path. -/
theorem strip?_of_cons {base p q : Path} {c : Component} {cs : List Component}
    (hb : base.components = c :: cs) (h : base.strip? p = some q) :
    ∃ ps, ps <:+ p.parts ∧ q = ofParts (trimmed ps) := by
  unfold strip? at h
  split at h
  case isFalse => simp at h
  obtain ⟨s, ps, hp⟩ := List.exists_cons_of_ne_nil p.parts_ne_nil
  simp only [hp, hb, Option.some.injEq] at h
  exact ⟨_, hp ▸ (dropParts_suffix _ _).trans (List.suffix_cons s ps), h.symm⟩

end Path

/-- A file that can be read has its name behind the last slash. -/
theorem last_of_read {d : Disk} {f : Path} {source : String} {n : List Char}
    (h : d.read f = .ok source) (hn : f.fileName? = some n) : f.parts.getLast? = some n := by
  obtain ⟨a, ha, content⟩ := bind_eq_ok h
  obtain ⟨-, -, ha⟩ := bind_eq_ok ha
  obtain ⟨cs, hcs⟩ := Path.fileName?_eq_some hn
  have last := List.getLast?_eq_some_getLast f.parts_ne_nil
  obtain ⟨ps, hps⟩ := List.getLast?_eq_some_iff.mp last
  rw [hps, followAll, List.foldlM_append] at ha
  obtain ⟨b, -, hb⟩ := bind_eq_ok ha
  rw [List.foldlM_cons] at hb
  obtain ⟨c, hc, hb⟩ := bind_eq_ok hb
  obtain rfl : c = a := Except.ok.inj hb
  have proper : Path.isTrivial (f.parts.getLast f.parts_ne_nil) = false := by
    cases ht : Path.isTrivial (f.parts.getLast f.parts_ne_nil) with
    | false => rfl
    | true =>
      rw [follow, if_pos ht] at hc
      split at hc
      · simp at hc
      · rename_i directory
        obtain rfl := Except.ok.inj hc
        have entry : d.entryAt? b = some .directory := by
          simpa [isDirectoryAt] using directory
        simp [entry] at content
  rw [last, Path.last_of_components last proper hcs]

/-- A working directory that there is, with names that a path can say. -/
structure HasHome (d : Disk) : Prop where
  names : ∀ n ∈ d.here, IsName n
  directory : d.isDirectoryAt d.here = true

theorem components_pathOf {a : Place} (h : ∀ n ∈ a, IsName n) :
    (pathOf a).components = .root :: a.map .name := by
  cases a with
  | nil => rfl
  | cons n a =>
    have parts : (pathOf (n :: a)).parts = [] :: (n :: a) := by
      have whole : (Path.ofParts (n :: a)).parts = n :: a :=
        Path.parts_ofParts (by simp) fun s hs => (h s hs).slash
      have front : (pathOf (n :: a)).parts = split (· == '/') [] ++ (Path.ofParts (n :: a)).parts :=
        split_append_separator '/' [] _
      rw [front, whole]
      rfl
    have names : (n :: a).filterMap Path.component? = (n :: a).map .name := by
      generalize n :: a = ns at h
      induction ns with
      | nil => rfl
      | cons m ns ih =>
        rw [List.filterMap_cons, Path.component?_name (h m List.mem_cons_self), List.map_cons,
          ih fun s hs => h s (List.mem_cons_of_mem _ hs)]
    rw [Path.components_of_parts parts, names]
    rfl

theorem landing_pathOf_here {d : Disk} (h : d.HasHome) : d.landing (pathOf d.here) = d.here := by
  rw [landing, components_pathOf h.names, leadAll, List.foldl_cons, ← leadAll, leadAll_names]
  rfl

/-- A file is shown as a path that ends in its name and has no other characters than its path. -/
theorem exists_shown {d : Disk} (home : d.HasHome) {f : Path} {n : List Char} {source : String}
    (hn : f.fileName? = some n) (last : f.parts.getLast? = some n)
    (file : d.entryAt? (d.landing f) = some (.file source)) :
    ∃ q : Path, d.shown f = q.text ∧ q.parts.getLast? = some n ∧
      ∀ c ∈ q.chars, c = '/' ∨ c ∈ f.chars := by
  unfold shown
  cases hq : (pathOf d.here).strip? f with
  | none => exact ⟨f, rfl, last, fun _ hc => .inr hc⟩
  | some q =>
    have base := components_pathOf home.names
    obtain ⟨⟨rest, hr⟩, own⟩ := Path.components_strip? hq
    obtain ⟨ps, hps, hqs⟩ := Path.strip?_of_cons base hq
    obtain ⟨cs, hcs⟩ := Path.fileName?_eq_some hn
    rw [← hr, List.drop_left] at own
    have more : rest ≠ [] := by
      rintro rfl
      rw [List.append_nil] at hr
      have here : d.landing f = d.here := by
        rw [landing, ← hr]
        exact landing_pathOf_here home
      have directory := home.directory
      rw [isDirectoryAt, ← here, file] at directory
      simp at directory
    have chars : q.chars ≠ [] := fun hc => more (own ▸ Path.components_eq_nil.mpr hc)
    have free : ∀ s ∈ Path.trimmed ps, '/' ∉ s := fun s hs =>
      Path.slash_not_mem (hps.mem (Path.mem_of_mem_trimmed hs))
    have nonempty : Path.trimmed ps ≠ [] := by
      intro he
      rw [hqs, he] at chars
      exact chars rfl
    have parts : q.parts = Path.trimmed ps := by
      rw [hqs]
      exact Path.parts_ofParts nonempty free
    have ends := List.getLast?_eq_some_getLast nonempty
    have proper : Path.isTrivial ((Path.trimmed ps).getLast nonempty) = false :=
      last_dropEndWhile Path.isTrivial ps _ ends
    obtain ⟨ds, hds⟩ : ∃ ds, rest = ds ++ [.name n] := by
      rw [← List.dropLast_append_getLast more] at hr ⊢
      rw [← List.append_assoc] at hr
      have same := (List.append_inj' (hr.trans hcs) rfl).2
      exact ⟨_, by rw [same]⟩
    refine ⟨q, by simp only [if_neg chars], ?_, fun c hc => ?_⟩
    · have last : q.parts.getLast? = some ((Path.trimmed ps).getLast nonempty) :=
        (congrArg List.getLast? parts).trans ends
      rw [last, Path.last_of_components last proper (own.trans hds)]
    · rw [hqs] at hc
      rcases Path.mem_chars_ofParts hc with hc | ⟨s, hs, hc⟩
      · exact .inl hc
      · exact .inr (Path.mem_chars_of_parts (hps.mem (Path.mem_of_mem_trimmed hs)) hc)

end Disk

theorem Request.isStylesheet_iff {r : Request} : r.isStylesheet = true ↔
    ∃ e, (Path.cutExtension r.fileName).2 = some e ∧ isStylesheetExtension e = true := by
  have same : r.extension? = (Path.cutExtension r.fileName).2 := by
    unfold Request.extension? Path.cutExtension
    rcases cutLast? (· == '.') r.fileName with _ | ⟨_ | ⟨c, stem⟩, e⟩ <;> rfl
  rw [Request.isStylesheet, same]
  cases h : (Path.cutExtension r.fileName).2 <;> simp

namespace Command

def query (inline : Bool) : List Char := (if inline then "export&inline" else "export").toList

/-- How a character of a shown path stands in the id of its request. -/
def slashed (c : Char) : Char := if c = '\\' then '/' else c

theorem slashed_eq_question {c : Char} (h : slashed c = '?') : c = '?' := by
  unfold slashed at h
  split at h
  · cases h
  · exact h

theorem slashed_ne_backslash (c : Char) : slashed c ≠ '\\' := by
  unfold slashed
  split
  · decide
  · assumption

theorem toList_requestId (s : String) (inline : Bool) :
    (requestId s inline).toList = s.toList.map slashed ++ '?' :: query inline := by
  unfold requestId
  rw [String.toList_ofList]
  cases inline <;> rfl

/-- The path of a build's request ends in front of the first question mark. -/
theorem ofId_requestId_cut {s : String} {a b : List Char} (hs : s.toList ++ ['?'] = a ++ '?' :: b)
    (question : '?' ∉ a) (inline : Bool) : Request.ofId (requestId s inline) =
      ⟨a.map slashed, some (b.map slashed ++ query inline)⟩ := by
  have free : ∀ c ∈ a.map slashed, (c == '?') = false := by
    intro c hc
    obtain ⟨d, hd, rfl⟩ := List.mem_map.mp hc
    rw [beq_eq_false_iff_ne]
    exact fun h => question (slashed_eq_question h ▸ hd)
  have chars : (requestId s inline).toList =
      a.map slashed ++ '?' :: (b.map slashed ++ query inline) := by
    have front := congrArg (fun t => t.map slashed ++ query inline) hs
    simp only [List.map_append, List.map_cons, List.append_assoc] at front
    rw [toList_requestId]
    exact front
  rw [Request.ofId, chars, Request.ofChars, cut?_append_cons free rfl]

theorem ofId_requestId {s : String} (question : '?' ∉ s.toList) (backslash : '\\' ∉ s.toList)
    (inline : Bool) : Request.ofId (requestId s inline) = ⟨s.toList, some (query inline)⟩ := by
  have same : s.toList.map slashed = s.toList := by
    refine (List.map_congr_left fun c hc => ?_).trans (List.map_id _)
    have other : c ≠ '\\' := fun h => backslash (h ▸ hc)
    exact if_neg other
  rw [ofId_requestId_cut rfl question, same]
  rfl

theorem isInline_query (path : List Char) (inline : Bool) :
    (⟨path, some (query inline)⟩ : Request).isInline = inline := by
  cases inline <;> (simp only [Request.isInline, Request.hasParameter]; decide)

theorem wantsExports_query (path : List Char) (inline : Bool) :
    (⟨path, some (query inline)⟩ : Request).wantsExports = true := by
  cases inline <;> (simp only [Request.wantsExports, Request.hasParameter]; decide)

theorem lastName_eq {q : Path} {n : List Char} (backslash : '\\' ∉ q.chars)
    (last : q.parts.getLast? = some n) : Request.lastName q.chars = n := by
  have same (s : List Char) (h : '\\' ∉ s) :
      split (fun c => c == '/' || c == '\\') s = split (· == '/') s := by
    induction s with
    | nil => rfl
    | cons c s ih =>
      have hc := List.ne_and_not_mem_of_not_mem_cons h
      have own : (c == '\\') = false := by simpa using Ne.symm hc.1
      rw [split, split, ih hc.2, own, Bool.or_false]
  have parts : split (fun c => c == '/' || c == '\\') q.chars = q.parts := same _ backslash
  unfold Request.lastName
  split
  · rename_i hq
    exact absurd hq (split_ne_nil _ _)
  · rename_i w ws hq
    rw [← parts, hq, List.getLast?_eq_some_getLast (List.cons_ne_nil w ws)] at last
    exact Option.some.inj last

theorem isVirtual_iff {path : List Char} (query : List Char) :
    (⟨path, some query⟩ : Request).isVirtual = true ↔ virtualStem <+: path := by
  rw [Request.isVirtual, List.isPrefixOf_iff_prefix]
  change virtualStem <+: path ++ '?' :: query ↔ _
  constructor
  · intro h
    rcases List.prefix_or_prefix_of_prefix h (List.prefix_append path _) with h' | ⟨t, ht⟩
    · exact h'
    · cases t with
      | nil => exact ⟨[], by rw [← ht]; simp⟩
      | cons c t =>
        rw [← ht, List.prefix_append_right_inj, List.cons_prefix_cons] at h
        have none : '?' ∉ virtualStem := by decide
        rw [← ht, h.1] at none
        simp at none
  · exact fun h => h.trans (List.prefix_append _ _)

/-- The request that a build makes of a stylesheet's shown path is in the scope of its plugin. -/
theorem inScope_requestId {q : Path} {n e : List Char} (question : '?' ∉ q.chars)
    (backslash : '\\' ∉ q.chars) (last : q.parts.getLast? = some n)
    (ext : (Path.cutExtension n).2 = some e) (he : isStylesheetExtension e = true)
    (free : ¬virtualStem <+: q.chars) (p : Plugin) (inline : Bool) :
    p.inScope (requestId q.text inline) = true := by
  have request : Request.ofId (requestId q.text inline) = ⟨q.chars, some (query inline)⟩ := by
    have chars : q.text.toList = q.chars := String.toList_ofList
    rw [ofId_requestId (chars ▸ question) (chars ▸ backslash), chars]
  have stylesheet : (⟨q.chars, some (query inline)⟩ : Request).isStylesheet = true := by
    refine Request.isStylesheet_iff.mpr ⟨e, ?_, he⟩
    rw [Request.fileName, lastName_eq backslash last, ext]
  have plain : (⟨q.chars, some (query inline)⟩ : Request).isVirtual = false := by
    rw [← Bool.not_eq_true, isVirtual_iff]
    exact free
  rw [Plugin.inScope, request]
  simp only [stylesheet, plain, wantsExports_query]
  rfl

end Command

end StyleExports
