import Mathlib.Data.List.Basic
import StyleExports.Proofs.Text.Trim

namespace StyleExports.Text

theorem split_of_none {p : Char → Bool} {w : List Char} (hw : ∀ c ∈ w, p c = false) :
    split p w = [w] := by
  induction w with
  | nil => rfl
  | cons c w ih =>
    have hc := hw c List.mem_cons_self
    rw [split, if_neg (by simp [hc]), ih fun d hd => hw d (List.mem_cons_of_mem _ hd)]

/-- The parts of a text are those in front of any separator and those behind it. -/
theorem split_append_separator (x : Char) (s t : List Char) :
    split (· == x) (s ++ x :: t) = split (· == x) s ++ split (· == x) t := by
  induction s with
  | nil => simp [split]
  | cons c s ih =>
    rw [List.cons_append, split, split, ih]
    by_cases hc : c = x
    · simp [hc]
    · have hs := split_ne_nil (· == x) s
      cases h : split (· == x) s with
      | nil => exact absurd h hs
      | cons w ws => simp [hc]

theorem split_append_cons {p : Char → Bool} {w s : List Char} {x : Char}
    (hw : ∀ c ∈ w, p c = false) (hx : p x = true) : split p (w ++ x :: s) = w :: split p s := by
  induction w with
  | nil => rw [List.nil_append, split, if_pos hx]
  | cons c w ih =>
    have hc := hw c List.mem_cons_self
    rw [List.cons_append, split, if_neg (by simp [hc]),
      ih fun d hd => hw d (List.mem_cons_of_mem _ hd)]

theorem mem_of_mem_split {p : Char → Bool} {s w : List Char} {c : Char} (hw : w ∈ split p s)
    (hc : c ∈ w) : c ∈ s := by
  induction s generalizing w with
  | nil =>
    rw [split, List.mem_singleton] at hw
    rwa [hw] at hc
  | cons d s ih =>
    rw [split] at hw
    split at hw
    · rcases List.mem_cons.mp hw with rfl | hw
      · simp at hc
      · exact List.mem_cons_of_mem d (ih hw hc)
    · cases h : split p s with
      | nil => exact absurd h (split_ne_nil p s)
      | cons v vs =>
        rw [h] at hw ih
        rcases List.mem_cons.mp hw with rfl | hw
        · exact (List.mem_cons.mp hc).elim (fun he => he ▸ List.mem_cons_self)
            fun hc => List.mem_cons_of_mem d (ih List.mem_cons_self hc)
        · exact List.mem_cons_of_mem d (ih (List.mem_cons_of_mem v hw) hc)

theorem mem_of_mem_join {sep : List Char} {ws : List (List Char)} {c : Char}
    (h : c ∈ join sep ws) : c ∈ sep ∨ ∃ w ∈ ws, c ∈ w := by
  induction ws with
  | nil => simp [join] at h
  | cons w ws ih =>
    cases ws with
    | nil => exact .inr ⟨w, by simp, h⟩
    | cons v ws =>
      simp only [join, List.append_assoc, List.mem_append] at h
      rcases h with h | h | h
      · exact .inr ⟨w, by simp, h⟩
      · exact .inl h
      · rcases ih h with h | ⟨u, hu, h⟩
        · exact .inl h
        · exact .inr ⟨u, List.mem_cons_of_mem _ hu, h⟩

theorem mem_split_of_mem {x c : Char} {s : List Char} (h : c ∈ s) :
    c = x ∨ ∃ w ∈ split (· == x) s, c ∈ w := by
  rw [← join_split x s] at h
  exact (mem_of_mem_join h).imp_left List.mem_singleton.mp

theorem join_eq_intercalate (sep : List Char) (ws : List (List Char)) :
    join sep ws = sep.intercalate ws := by
  induction ws with
  | nil => rfl
  | cons w ws ih =>
    cases ws with
    | nil => simp [join, List.intercalate]
    | cons v ws =>
      rw [join, ih]
      simp [List.intercalate]

/-- A list with the separator in front of every part but the first. -/
theorem join_cons (sep w : List Char) (ws : List (List Char)) :
    join sep (w :: ws) = w ++ ws.flatMap (sep ++ ·) := by
  induction ws generalizing w with
  | nil => rw [join, List.flatMap_nil, List.append_nil]
  | cons v ws ih => rw [join, ih, List.flatMap_cons, List.append_assoc, List.append_assoc]

/-- The text of a value in front of a mark tells what `g` says of the value, and where the text
ends. -/
def Tells {α β : Type} (p : Char → Prop) (f : α → List Char) (g : α → β) (x : α) : Prop :=
  ∀ y c d s t, p c → p d → f x ++ c :: s = f y ++ d :: t → g x = g y ∧ c :: s = d :: t

section

variable {α β : Type} {p : Char → Prop} {f : α → List Char} {g : α → β} {a e : Char}
  {sep s t : List Char} {x y : α} {xs ys : List α}

/-- A list is read back part by part up to the mark at its end. -/
theorem flatMap_append_inj (ha : p a) (he : p e) (hne : a ≠ e)
    (hf : ∀ x ∈ xs, Tells p f g x)
    (h : xs.flatMap (fun x => a :: (sep ++ f x)) ++ e :: s =
      ys.flatMap (fun y => a :: (sep ++ f y)) ++ e :: t) : xs.map g = ys.map g ∧ s = t := by
  have next (zs : List α) (r : List Char) : ∃ c u,
      zs.flatMap (fun z => a :: (sep ++ f z)) ++ e :: r = c :: u ∧ p c := by
    cases zs with
    | nil => exact ⟨e, r, rfl, he⟩
    | cons z zs => exact ⟨a, _, rfl, ha⟩
  induction xs generalizing ys with
  | nil =>
    cases ys with
    | nil => exact ⟨rfl, (List.cons.inj h).2⟩
    | cons y ys => exact absurd (List.cons.inj h).1.symm hne
  | cons x xs ih =>
    cases ys with
    | nil => exact absurd (List.cons.inj h).1 hne
    | cons y ys =>
      obtain ⟨c, u, hu, hc⟩ := next xs s
      obtain ⟨d, v, hv, hd⟩ := next ys t
      simp only [List.flatMap_cons, List.cons_append, List.append_assoc, List.cons.injEq, true_and,
        List.append_cancel_left_eq] at h
      rw [hu, hv] at h
      obtain ⟨first, rest⟩ := hf x List.mem_cons_self y c d u v hc hd h
      rw [← hu, ← hv] at rest
      obtain ⟨others, after⟩ := ih (fun z hz => hf z (List.mem_cons_of_mem _ hz)) rest
      exact ⟨congrArg₂ List.cons first others, after⟩

/-- The parts of a list between separators are read back up to the mark at its end. -/
theorem join_append_inj (ha : p a) (he : p e) (hne : a ≠ e)
    (hf : ∀ z ∈ x :: xs, Tells p f g z)
    (h : join (a :: sep) ((x :: xs).map f) ++ e :: s =
      join (a :: sep) ((y :: ys).map f) ++ e :: t) :
    (x :: xs).map g = (y :: ys).map g ∧ s = t := by
  have written (z : α) (zs : List α) (r : List Char) :
      a :: sep ++ (join (a :: sep) ((z :: zs).map f) ++ e :: r) =
        (z :: zs).flatMap (fun z => a :: (sep ++ f z)) ++ e :: r := by
    rw [List.map_cons, join_cons, List.flatMap_map, List.flatMap_cons]
    simp only [List.cons_append, List.append_assoc]
  apply flatMap_append_inj ha he hne hf
  rw [← written, ← written, h]

end

theorem map_trim_split_join {ws : List (List Char)} (hn : ws ≠ [])
    (hw : ∀ w ∈ ws, ',' ∉ w ∧ IsTight w) :
    (split (· == ',') (' ' :: (join [',', ' '] ws ++ [' ']))).map trim = ws := by
  have free (w : List Char) (hw : ',' ∉ w) : ∀ c ∈ ' ' :: w, (c == ',') = false := by
    intro c hc
    rcases List.mem_cons.mp hc with rfl | hc
    · rfl
    · rw [beq_eq_false_iff_ne]
      rintro rfl
      exact hw hc
  have blank : ∀ c ∈ [' '], isBlank c = true := forall_mem_of_all (by decide)
  induction ws with
  | nil => exact absurd rfl hn
  | cons w ws ih =>
    obtain ⟨hcomma, htight⟩ := hw w List.mem_cons_self
    cases ws with
    | nil =>
      have one : ∀ c ∈ ' ' :: (w ++ [' ']), (c == ',') = false :=
        free _ (by simpa using hcomma)
      have ht := trim_pad blank htight blank
      rw [join, split_of_none one, List.map_singleton]
      exact congrArg (fun s => [s]) ht
    | cons v ws =>
      have ht := trim_pad (e := []) blank htight (by simp)
      rw [List.append_nil] at ht
      have hs : ' ' :: (join [',', ' '] (w :: v :: ws) ++ [' ']) =
          (' ' :: w) ++ ',' :: (' ' :: (join [',', ' '] (v :: ws) ++ [' '])) := by
        simp [join]
      rw [hs, split_append_cons (free w hcomma) rfl, List.map_cons,
        ih (by simp) fun u hu => hw u (List.mem_cons_of_mem _ hu)]
      exact congrArg (· :: v :: ws) ht

theorem cut?_eq_some {p : Char → Bool} {s a b : List Char} (h : cut? p s = some (a, b)) :
    ∃ c, s = a ++ c :: b ∧ p c = true := by
  induction s generalizing a with
  | nil => simp [cut?] at h
  | cons c s ih =>
    unfold cut? at h
    split at h
    · rename_i hc
      simp only [Option.some.injEq, Prod.mk.injEq] at h
      obtain ⟨rfl, rfl⟩ := h
      exact ⟨c, rfl, hc⟩
    · simp only [Option.map_eq_some_iff, Prod.mk.injEq, Prod.exists] at h
      obtain ⟨a', b', h, rfl, rfl⟩ := h
      obtain ⟨d, rfl, hd⟩ := ih h
      exact ⟨d, rfl, hd⟩

theorem cut?_append_cons {p : Char → Bool} {a b : List Char} {c : Char}
    (ha : ∀ d ∈ a, p d = false) (hc : p c = true) : cut? p (a ++ c :: b) = some (a, b) := by
  induction a with
  | nil => rw [List.nil_append, cut?, if_pos hc]
  | cons d a ih =>
    have hd := ha d List.mem_cons_self
    rw [List.cons_append, cut?, if_neg (by simp [hd]), ih fun e he => ha e (List.mem_cons_of_mem _ he)]
    rfl

theorem cutLast?_eq_none {p : Char → Bool} {s : List Char} (h : ∀ c ∈ s, p c = false) :
    cutLast? p s = none := by
  induction s with
  | nil => rfl
  | cons c s ih =>
    rw [cutLast?, ih fun d hd => h d (List.mem_cons_of_mem c hd)]
    simp [h c List.mem_cons_self]

theorem cutLast?_append_cons {p : Char → Bool} {a b : List Char} {c : Char} (hc : p c = true)
    (hb : ∀ d ∈ b, p d = false) : cutLast? p (a ++ c :: b) = some (a, b) := by
  induction a with
  | nil =>
    rw [List.nil_append, cutLast?, cutLast?_eq_none hb]
    simp [hc]
  | cons d a ih => rw [List.cons_append, cutLast?, ih]

theorem cutText?_eq_some {t s a b : List Char} (h : cutText? t s = some (a, b)) :
    s = a ++ (t ++ b) := by
  induction s generalizing a with
  | nil =>
    unfold cutText? at h
    split at h
    · rename_i ht
      simp only [Option.some.injEq, Prod.mk.injEq] at h
      rw [← h.1, ← h.2, List.isEmpty_iff.mp ht]
      rfl
    · simp at h
  | cons c s ih =>
    unfold cutText? at h
    split at h
    · rename_i r hr
      simp only [Option.some.injEq, Prod.mk.injEq] at h
      rw [← h.1, ← h.2, List.nil_append, ← List.isPrefixOf?_eq_some_iff_append_eq.mp hr]
    · simp only [Option.map_eq_some_iff, Prod.mk.injEq, Prod.exists] at h
      obtain ⟨a', b', h, rfl, rfl⟩ := h
      rw [ih h, List.cons_append]

theorem occursIn_iff {t s : List Char} : occursIn t s = true ↔ t <:+: s := by
  constructor
  · intro h
    obtain ⟨⟨a, b⟩, cut⟩ := Option.isSome_iff_exists.mp h
    exact ⟨a, b, by rw [cutText?_eq_some cut, List.append_assoc]⟩
  · intro h
    induction s with
    | nil =>
      obtain rfl := List.infix_nil.mp h
      rfl
    | cons c s ih =>
      rw [occursIn, cutText?]
      cases hp : t.isPrefixOf? (c :: s) with
      | some rest => rfl
      | none =>
        rcases List.infix_cons_iff.mp h with ⟨b, hb⟩ | h
        · rw [List.isPrefixOf?_eq_some_iff_append_eq.mpr hb] at hp
          cases hp
        · simpa [occursIn] using ih h

theorem cutText?_cons_of_ne {d c : Char} {t s : List Char} (h : c ≠ d) :
    cutText? (d :: t) (c :: s) = (cutText? (d :: t) s).map fun (a, b) => (c :: a, b) := by
  have hp : (d :: t).isPrefixOf? (c :: s) = none := by
    simp [List.isPrefixOf?, Ne.symm h]
  rw [cutText?, hp]

theorem cutText?_of_not_mem {d : Char} {t s : List Char} (h : d ∉ s) :
    cutText? (d :: t) s = none := by
  induction s with
  | nil => rfl
  | cons c s ih =>
    simp only [List.mem_cons, not_or] at h
    rw [cutText?_cons_of_ne (Ne.symm h.1), ih h.2]
    rfl

theorem cutText?_append {d : Char} {t a b : List Char} (h : d ∉ a) :
    cutText? (d :: t) (a ++ (d :: t ++ b)) = some (a, b) := by
  induction a with
  | nil =>
    have hp : (d :: t).isPrefixOf? (d :: t ++ b) = some b :=
      List.isPrefixOf?_eq_some_iff_append_eq.mpr rfl
    rw [List.nil_append, List.cons_append, cutText?, ← List.cons_append, hp]
  | cons c a ih =>
    simp only [List.mem_cons, not_or] at h
    rw [List.cons_append, cutText?_cons_of_ne (Ne.symm h.1), ih h.2]
    rfl

end StyleExports.Text
