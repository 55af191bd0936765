import StyleExports.Config.PathPattern
import StyleExports.Proofs.Disk.Components

namespace StyleExports

open Text

namespace PathPattern

theorem passes_iff {directory path : List Char} (h : '/' ∉ directory) :
    passes directory path = true ↔ directory ∈ (split (· == '/') path).dropLast := by
  have whole : split (· == '/') directory = [directory] := split_of_none fun c hc => by
    rw [beq_eq_false_iff_ne]
    rintro rfl
    exact h hc
  have found (b : List Char) : directory ∈ (split (· == '/') (directory ++ '/' :: b)).dropLast := by
    rw [split_append_separator '/', whole, List.dropLast_append_of_ne_nil (split_ne_nil _ b)]
    exact List.mem_append_left _ (List.mem_singleton.mpr rfl)
  rw [passes, Bool.or_eq_true, List.isPrefixOf_iff_prefix, occursIn_iff]
  constructor
  · rintro (⟨b, rfl⟩ | ⟨a, b, rfl⟩)
    · rw [List.append_assoc]
      exact found b
    · have text : a ++ '/' :: (directory ++ ['/']) ++ b = a ++ '/' :: (directory ++ '/' :: b) := by
        simp
      rw [text, split_append_separator '/', List.dropLast_append_of_ne_nil (split_ne_nil _ _)]
      exact List.mem_append_right _ (found b)
  · intro mem
    obtain ⟨us, ws, parts⟩ := List.append_of_mem mem
    have all := List.dropLast_append_getLast (split_ne_nil (· == '/') path)
    rw [parts, List.append_assoc, List.cons_append] at all
    obtain ⟨v, vs, rest⟩ := List.exists_cons_of_ne_nil (l := ws ++
      [(split (· == '/') path).getLast (split_ne_nil _ _)]) (by simp)
    rw [← join_split '/' path, ← all, rest]
    cases us with
    | nil =>
      left
      rw [List.nil_append, join_cons, List.flatMap_cons]
      exact ⟨v ++ vs.flatMap (['/'] ++ ·), by simp⟩
    | cons u us =>
      right
      rw [List.cons_append, join_cons, List.flatMap_append, List.flatMap_cons, List.flatMap_cons]
      exact ⟨u ++ us.flatMap (['/'] ++ ·), v ++ vs.flatMap (['/'] ++ ·), by simp⟩

open Disk

/-- A path that ends in a name is left out if it has the directory in front of the name. -/
theorem passes_iff_component {directory n : List Char} (h : IsName directory) {p : Path}
    (last : p.parts.getLast? = some n) (proper : Path.isTrivial n = false) :
    passes directory p.chars = true ↔ .name directory ∈ p.components.dropLast := by
  have behind (s : List Char) : Path.component? s = some (.name directory) ↔ s = directory := by
    refine ⟨fun hs => (Path.component?_eq_name hs).1, ?_⟩
    rintro rfl
    exact Path.component?_name h
  have front (s : List Char) :
      Path.firstComponent? s true = some (.name directory) ↔ s = directory := by
    unfold Path.firstComponent?
    by_cases hn : s = []
    · have other : directory ≠ [] := fun he => by simpa [he, Path.isTrivial] using h.proper
      simp [hn, Ne.symm other]
    by_cases hd : s = ['.']
    · have other : directory ≠ ['.'] := fun he => by simpa [he, Path.isTrivial] using h.proper
      simp [hd, Ne.symm other]
    · rw [if_neg hn, if_neg hd, behind]
  rw [passes_iff h.slash]
  change directory ∈ p.parts.dropLast ↔ _
  obtain ⟨qs, parts⟩ := List.getLast?_eq_some_iff.mp last
  obtain ⟨c, named⟩ := Path.component?_isSome proper
  rw [parts, List.dropLast_concat]
  cases qs with
  | nil =>
    rw [Path.components_of_parts parts]
    cases Path.firstComponent? n (!([] : List (List Char)).isEmpty) <;> simp
  | cons s qs =>
    have more : (!(qs ++ [n]).isEmpty) = true := by simp
    rw [List.cons_append] at parts
    rw [Path.components_of_parts parts, more, List.filterMap_append, List.filterMap_cons, named,
      List.filterMap_nil, ← List.append_assoc, List.dropLast_concat, List.mem_append,
      Option.mem_toList, front]
    simp [List.mem_filterMap, behind, eq_comm]

end PathPattern

end StyleExports
