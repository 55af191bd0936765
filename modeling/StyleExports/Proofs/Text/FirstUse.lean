import Mathlib.Data.List.Induction

namespace StyleExports.Text

variable {α : Type} [BEq α] [LawfulBEq α] {a : α} {l : List α}

theorem eraseDups_concat_of_mem (h : a ∈ l) : (l ++ [a]).eraseDups = l.eraseDups := by
  rw [List.eraseDups_append]
  simp [List.removeAll, h]

theorem eraseDups_concat_of_not_mem (h : a ∉ l) : (l ++ [a]).eraseDups = l.eraseDups ++ [a] := by
  rw [List.eraseDups_append]
  simp [List.removeAll, List.eraseDups_cons, h]

/-- Without repetitions names stand as they are first used. -/
theorem pairwise_eraseDups (l : List α) :
    l.eraseDups.Pairwise fun a b => l.idxOf a < l.idxOf b := by
  induction l using List.reverseRecOn with
  | nil => exact .nil
  | append_singleton l c ih =>
    have before : l.eraseDups.Pairwise fun a b => (l ++ [c]).idxOf a < (l ++ [c]).idxOf b := by
      refine ih.imp_of_mem fun ha hb hab => ?_
      rw [List.mem_eraseDups] at ha hb
      rwa [List.idxOf_append, if_pos ha, List.idxOf_append, if_pos hb]
    by_cases h : c ∈ l
    · rwa [eraseDups_concat_of_mem h]
    · rw [eraseDups_concat_of_not_mem h, List.pairwise_append]
      refine ⟨before, List.pairwise_singleton _ c, fun a ha b hb => ?_⟩
      rw [List.mem_eraseDups] at ha
      obtain rfl := List.mem_singleton.mp hb
      have := List.idxOf_lt_length_of_mem ha
      rw [List.idxOf_append, if_pos ha, List.idxOf_append, if_neg h]
      omega

theorem nodup_eraseDups (l : List α) : l.eraseDups.Nodup :=
  (pairwise_eraseDups l).imp fun h he => absurd h (by rw [he]; exact Nat.lt_irrefl _)

end StyleExports.Text
