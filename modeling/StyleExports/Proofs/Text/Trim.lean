import Mathlib.Data.List.DropRight
import StyleExports.Text.Cut
import StyleExports.Text.Blank

namespace StyleExports.Text

theorem dropEndWhile_concat {α : Type} (p : α → Bool) (s : List α) (c : α) :
    dropEndWhile p (s ++ [c]) = if p c then dropEndWhile p s else s ++ [c] := by
  induction s with
  | nil => rfl
  | cons d s ih =>
    rw [List.cons_append, dropEndWhile, ih]
    by_cases hc : p c
    · simp [hc, dropEndWhile]
    · rw [if_neg hc, if_neg hc]
      cases s <;> rfl

theorem dropEndWhile_eq_rdropWhile {α : Type} (p : α → Bool) (s : List α) :
    dropEndWhile p s = s.rdropWhile p := by
  induction s using List.reverseRecOn with
  | nil => rfl
  | append_singleton s c ih => rw [dropEndWhile_concat, List.rdropWhile_concat, ih]

theorem dropEndWhile_append_of_all {α : Type} {p : α → Bool} (s : List α) {t : List α}
    (ht : ∀ c ∈ t, p c) : dropEndWhile p (s ++ t) = dropEndWhile p s := by
  induction t using List.reverseRecOn with
  | nil => rw [List.append_nil]
  | append_singleton t c ih =>
    have hc : p c := ht c (by simp)
    rw [← List.append_assoc, dropEndWhile_concat, if_pos hc]
    exact ih fun d hd => ht d (by simp [hd])

/-- A run at the end does not reach beyond what is not of it. -/
theorem dropEndWhile_append_cons {α : Type} {p : α → Bool} {c : α} (hc : p c = false)
    (s t : List α) : dropEndWhile p (s ++ c :: t) = s ++ c :: dropEndWhile p t := by
  induction s with
  | nil =>
    rw [List.nil_append, dropEndWhile]
    cases dropEndWhile p t <;> simp [hc]
  | cons d s ih =>
    rw [List.cons_append, dropEndWhile, ih]
    cases s <;> rfl

theorem dropEndWhile_of_last {α : Type} {p : α → Bool} {s : List α}
    (h : ∀ c ∈ s.getLast?, p c = false) : dropEndWhile p s = s := by
  rw [dropEndWhile_eq_rdropWhile, List.rdropWhile_eq_self_iff]
  intro hl
  simp [h _ (List.getLast?_eq_some_getLast hl)]

theorem dropEndWhile_idem {α : Type} (p : α → Bool) (s : List α) :
    dropEndWhile p (dropEndWhile p s) = dropEndWhile p s := by
  simp only [dropEndWhile_eq_rdropWhile]
  exact List.rdropWhile_idempotent p s

theorem last_dropEndWhile {α : Type} (p : α → Bool) (s : List α) :
    ∀ c ∈ (dropEndWhile p s).getLast?, p c = false := by
  intro c hc
  rw [dropEndWhile_eq_rdropWhile] at hc
  obtain ⟨hne, hlast⟩ := List.mem_getLast?_eq_getLast hc
  have hn := List.rdropWhile_last_not p s hne
  rw [← hlast] at hn
  simpa using hn

theorem exists_dropWhile {α : Type} (p : α → Bool) (s : List α) :
    ∃ b, (∀ c ∈ b, p c) ∧ s = b ++ s.dropWhile p :=
  ⟨s.takeWhile p, fun _ hc => List.mem_takeWhile_imp hc, List.takeWhile_append_dropWhile.symm⟩

theorem exists_dropEndWhile {α : Type} (p : α → Bool) (s : List α) :
    ∃ e, (∀ c ∈ e, p c) ∧ s = dropEndWhile p s ++ e :=
  ⟨takeEndWhile p s, fun _ hc => of_mem_takeEndWhile hc,
    (dropEndWhile_append_takeEndWhile p s).symm⟩

theorem head_dropWhile_of_cons {α : Type} {p : α → Bool} {s t : List α} {c : α}
    (h : s.dropWhile p = c :: t) : p c = false := by
  have hc := List.head?_dropWhile_not p s
  rw [h] at hc
  exact hc

theorem dropWhile_eq_self_of_head {α : Type} {p : α → Bool} {s : List α}
    (h : ∀ c ∈ s.head?, p c = false) : s.dropWhile p = s := by
  cases s with
  | nil => rfl
  | cons c s => simp [h c rfl]

theorem dropWhile_append_cons {α : Type} {p : α → Bool} {c : α} (hc : p c = false)
    (s t : List α) : (s ++ c :: t).dropWhile p = s.dropWhile p ++ c :: t := by
  rw [List.dropWhile_append]
  split
  · rename_i h
    rw [List.isEmpty_iff.mp h, List.nil_append, List.dropWhile_cons_of_neg (by simp [hc])]
  · rfl

/-- What is decided of the members of a list one by one. Deciding it as it is written can come to
trying all characters. -/
theorem forall_mem_of_all {α : Type} {p : α → Prop} [DecidablePred p] {s : List α}
    (h : (s.all fun c => decide (p c)) = true) : ∀ c ∈ s, p c := by
  intro c hc
  exact of_decide_eq_true (List.all_eq_true.mp h c hc)

theorem forall_head?_cons {α : Type} {p : α → Prop} {c : α} {s : List α} (h : p c) :
    ∀ d ∈ (c :: s).head?, p d := by
  intro d hd
  rwa [← Option.some.inj hd]

theorem forall_getLast?_concat {α : Type} {p : α → Prop} {c : α} {s : List α} (h : p c) :
    ∀ d ∈ (s ++ [c]).getLast?, p d := by
  intro d hd
  rw [List.getLast?_concat] at hd
  rwa [← Option.some.inj hd]

theorem ne_of_class {p : Char → Bool} {c d : Char} (hc : p c = true) (hd : p d = false) :
    c ≠ d := by
  rintro rfl
  simp [hc] at hd

def IsTight (s : List Char) : Prop :=
  (∀ c ∈ s.head?, isBlank c = false) ∧ ∀ c ∈ s.getLast?, isBlank c = false

instance : DecidablePred IsTight := fun s =>
  decidable_of_iff (s.head?.all (!isBlank ·) = true ∧ s.getLast?.all (!isBlank ·) = true) <| by
    simp [IsTight, Option.all_eq_true]

theorem isTight_of_none {s : List Char} (hs : ∀ c ∈ s, isBlank c = false) : IsTight s :=
  ⟨fun c hc => hs c (List.mem_of_head? hc), fun c hc => hs c (List.mem_of_getLast? hc)⟩

theorem trimStart_pad {b s : List Char} (hb : ∀ c ∈ b, isBlank c)
    (hs : ∀ c ∈ s.head?, isBlank c = false) : trimStart (b ++ s) = s := by
  rw [trimStart, List.dropWhile_append_of_pos hb]
  exact dropWhile_eq_self_of_head hs

theorem trimEnd_pad {s e : List Char} (hs : ∀ c ∈ s.getLast?, isBlank c = false)
    (he : ∀ c ∈ e, isBlank c) : trimEnd (s ++ e) = s := by
  rw [trimEnd, dropEndWhile_append_of_all s he]
  exact dropEndWhile_of_last hs

theorem trim_pad {b s e : List Char} (hb : ∀ c ∈ b, isBlank c) (hs : IsTight s)
    (he : ∀ c ∈ e, isBlank c) : trim (b ++ s ++ e) = s := by
  cases s with
  | nil =>
    have hall : ∀ c ∈ b ++ [] ++ e, isBlank c := by
      intro c hc
      rw [List.append_nil, List.mem_append] at hc
      exact hc.elim (hb c) (he c)
    rw [trim, trimStart, List.dropWhile_eq_nil_iff.mpr hall]
    rfl
  | cons c s =>
    have hh : ∀ d ∈ (c :: s ++ e).head?, isBlank d = false := hs.1
    rw [trim, List.append_assoc, trimStart_pad hb hh, trimEnd_pad hs.2 he]

theorem trim_of_tight {s : List Char} (hs : IsTight s) : trim s = s := by
  have hp := trim_pad (b := []) (e := []) (by simp) hs (by simp)
  rwa [List.nil_append, List.append_nil] at hp

/-- What trimming leaves has no blank at its ends, and only blanks are gone. -/
theorem exists_trim (s : List Char) :
    ∃ b e, (∀ c ∈ b, isBlank c) ∧ (∀ c ∈ e, isBlank c) ∧ s = b ++ trim s ++ e := by
  obtain ⟨b, hb, h1⟩ := exists_dropWhile isBlank s
  obtain ⟨e, he, h2⟩ := exists_dropEndWhile isBlank (s.dropWhile isBlank)
  refine ⟨b, e, hb, he, ?_⟩
  rw [List.append_assoc]
  exact h1.trans (congrArg (b ++ ·) h2)

theorem isTight_trim (s : List Char) : IsTight (trim s) := by
  constructor
  · intro c hc
    obtain ⟨e, -, he⟩ := exists_dropEndWhile isBlank (trimStart s)
    change trimStart s = trim s ++ e at he
    cases ht : trim s with
    | nil => simp [ht] at hc
    | cons d t =>
      rw [ht] at hc he
      exact forall_head?_cons (p := fun e => isBlank e = false) (head_dropWhile_of_cons he) c hc
  · exact last_dropEndWhile isBlank (trimStart s)

theorem trim_concat (s : List Char) {c : Char} (hc : isBlank c = false) :
    trim (s ++ [c]) = trimStart s ++ [c] := by
  have hs : trimStart (s ++ [c]) = trimStart s ++ [c] := dropWhile_append_cons hc s []
  rw [trim, hs, trimEnd, dropEndWhile_concat, if_neg (by simp [hc])]

end StyleExports.Text
