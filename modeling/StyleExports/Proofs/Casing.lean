import StyleExports.Casing
import StyleExports.Proofs.Text.Separator

namespace StyleExports

open Text

def IsAscii (s : List Char) : Prop := ∀ c ∈ s, c.toNat < 128

instance (s : List Char) : Decidable (IsAscii s) :=
  List.decidableBAll (fun c : Char => c.toNat < 128) s

def hyphens (n : Nat) : String := String.ofList (List.replicate n '-')

namespace Text.LetterCase

variable {c : Char}

theorem exists_of_ascii (hc : c.toNat < 128) : ∃ n : Fin 128, Char.ofNat n = c :=
  ⟨⟨c.toNat, hc⟩, Char.ofNat_toNat c⟩

/-- Only the first run of a table is about ASCII characters. -/
theorem other_of_ascii {r : Run} {rs : List Run} {es : List (Nat × List Nat)}
    (hr : ∀ q ∈ rs, 128 ≤ q.first) (he : ∀ e ∈ es, 128 ≤ e.1) (hc : c.toNat < 128) :
    other (r :: rs) es c =
      if r.covers c.toNat then [Char.ofNat (c.toNat + r.shift).toNat] else [c] := by
  have expansion : es.find? (·.1 == c.toNat) = none := by
    refine List.find?_eq_none.mpr fun e hm => ?_
    have := he e hm
    simp only [beq_iff_eq]
    omega
  have behind : rs.find? (·.covers c.toNat) = none := by
    refine List.find?_eq_none.mpr fun q hm => ?_
    have := hr q hm
    simp only [Run.covers, Bool.and_eq_true, decide_eq_true_eq]
    omega
  rw [other, expansion, List.find?_cons, behind]
  cases r.covers c.toNat <;> rfl

theorem upper_of_ascii (hc : c.toNat < 128) : upper c = [c.toUpper] := by
  have table : upperRuns = ⟨0x61, 0x7a, 1, -32⟩ :: upperRuns.tail := rfl
  rw [upper, table, other_of_ascii (by decide +kernel) (by decide +kernel) hc]
  obtain ⟨n, rfl⟩ := exists_of_ascii hc
  revert n
  decide

theorem lower_of_ascii (hc : c.toNat < 128) : lower c = [c.toLower] := by
  have table : lowerRuns = ⟨0x41, 0x5a, 1, 32⟩ :: lowerRuns.tail := rfl
  rw [lower, table, other_of_ascii (by decide +kernel) (by decide +kernel) hc]
  obtain ⟨n, rfl⟩ := exists_of_ascii hc
  revert n
  decide

end Text.LetterCase

namespace Casing

variable {s t w : List Char}

theorem segments_ne_nil (s : List Char) : segments s ≠ [] := split_ne_nil _ s

theorem segments_hyphen (s t : List Char) : segments (s ++ '-' :: t) = segments s ++ segments t :=
  split_append_separator '-' s t

theorem toUpperCamel_hyphen (s t : List Char) :
    toUpperCamel (s ++ '-' :: t) = toUpperCamel s ++ toUpperCamel t := by
  rw [toUpperCamel, segments_hyphen, List.flatMap_append]
  rfl

theorem toLowerCamel_hyphen (s t : List Char) :
    toLowerCamel (s ++ '-' :: t) = toLowerCamel s ++ toUpperCamel t := by
  rw [toLowerCamel, toLowerCamel, segments_hyphen]
  cases h : segments s with
  | nil => exact absurd h (segments_ne_nil s)
  | cons w ws => simp only [List.cons_append, List.flatMap_append, List.append_assoc, toUpperCamel]

def onChars : Casing → List Char → List Char
  | .lowerCamel => toLowerCamel
  | .upperCamel => toUpperCamel

theorem toList_apply (c : Casing) (x : String) : (c.apply x).toList = c.onChars x.toList := by
  cases c <;> exact String.toList_ofList

theorem onChars_hyphen (c : Casing) (s t : List Char) :
    c.onChars (s ++ '-' :: t) = c.onChars s ++ toUpperCamel t := by
  cases c with
  | lowerCamel => exact toLowerCamel_hyphen s t
  | upperCamel => exact toUpperCamel_hyphen s t

theorem toUpperCamel_hyphens (n : Nat) (t : List Char) :
    toUpperCamel (List.replicate n '-' ++ t) = toUpperCamel t := by
  induction n with
  | zero => rfl
  | succ n ih =>
    have seam : List.replicate (n + 1) '-' ++ t = [] ++ '-' :: (List.replicate n '-' ++ t) := rfl
    rw [seam, toUpperCamel_hyphen, ih]
    rfl

theorem onChars_hyphens (c : Casing) (s : List Char) (n : Nat) (t : List Char) :
    c.onChars (s ++ List.replicate (n + 1) '-' ++ t) = c.onChars (s ++ '-' :: t) := by
  have seam : s ++ List.replicate (n + 1) '-' ++ t = s ++ '-' :: (List.replicate n '-' ++ t) := by
    rw [List.append_assoc]
    rfl
  rw [seam, onChars_hyphen, toUpperCamel_hyphens, ← onChars_hyphen]

theorem onChars_trailing (c : Casing) (s : List Char) (n : Nat) :
    c.onChars (s ++ List.replicate n '-') = c.onChars s := by
  cases n with
  | zero => rw [List.replicate_zero, List.append_nil]
  | succ n =>
    have one := c.onChars_hyphens s n []
    rw [List.append_nil] at one
    rw [one, onChars_hyphen]
    exact List.append_nil _

theorem isAscii_of_mem_segments (hs : IsAscii s) (hw : w ∈ segments s) : IsAscii w := fun _ hc =>
  hs _ (mem_of_mem_split hw hc)

/-- No letter becomes a hyphen, and the letter case of a character does not matter to its upper case. -/
theorem letters_of_ascii {c : Char} (hc : c.toNat < 128) : (c.toLower == '-') = (c == '-') ∧
    (c.toUpper == '-') = (c == '-') ∧ c.toLower.toUpper = c.toUpper := by
  obtain ⟨n, rfl⟩ := LetterCase.exists_of_ascii hc
  revert n
  decide

theorem segments_lower (hs : IsAscii s) :
    segments (s.map Char.toLower) = (segments s).map (·.map Char.toLower) := by
  induction s with
  | nil => rfl
  | cons c s ih =>
    obtain ⟨hc, hs⟩ := List.forall_mem_cons.mp hs
    have rest := ih hs
    unfold segments at rest ⊢
    rw [List.map_cons, split, split, rest, (letters_of_ascii hc).1]
    by_cases hyphen : (c == '-') = true
    · rw [if_pos hyphen, if_pos hyphen]
      rfl
    · rw [if_neg hyphen, if_neg hyphen]
      cases split (· == '-') s <;> rfl

def initialUpper : List Char → List Char
  | [] => []
  | c :: w => c.toUpper :: w

theorem lowered_of_ascii (hw : IsAscii w) : lowered w = w.map Char.toLower := by
  induction w with
  | nil => rfl
  | cons c w ih =>
    obtain ⟨hc, hw⟩ := List.forall_mem_cons.mp hw
    rw [lowered, List.flatMap_cons, LetterCase.lower_of_ascii hc, List.map_cons, ← ih hw]
    rfl

theorem capitalized_of_ascii (hw : IsAscii w) : capitalized w = initialUpper (w.map Char.toLower) := by
  cases w with
  | nil => rfl
  | cons c w =>
    obtain ⟨hc, hw⟩ := List.forall_mem_cons.mp hw
    rw [capitalized, LetterCase.upper_of_ascii hc, lowered_of_ascii hw, ← (letters_of_ascii hc).2.2]
    rfl

/-- Upper camel case is made from the text in lower case. -/
theorem toUpperCamel_of_ascii (hs : IsAscii s) :
    toUpperCamel s = (segments (s.map Char.toLower)).flatMap initialUpper := by
  rw [toUpperCamel, segments_lower hs, List.flatMap_map]
  exact List.flatMap_congr fun w hw => capitalized_of_ascii (isAscii_of_mem_segments hs hw)

theorem toLowerCamel_of_ascii (hs : IsAscii s) :
    toLowerCamel s = (segments (s.map Char.toLower)).head?.getD [] ++
      (segments (s.map Char.toLower)).tail.flatMap initialUpper := by
  have words : ∀ w ∈ segments s, IsAscii w := fun w hw => isAscii_of_mem_segments hs hw
  rw [toLowerCamel, segments_lower hs]
  cases h : segments s with
  | nil => rfl
  | cons w ws =>
    rw [h, List.forall_mem_cons] at words
    simp only [List.map_cons, List.head?_cons, Option.getD_some, List.tail_cons, List.flatMap_map,
      lowered_of_ascii words.1]
    exact congrArg _ (List.flatMap_congr fun v hv => capitalized_of_ascii (words.2 v hv))

theorem onChars_congr (c : Casing) (hs : IsAscii s) (ht : IsAscii t)
    (h : s.map Char.toLower = t.map Char.toLower) : c.onChars s = c.onChars t := by
  cases c with
  | lowerCamel => exact (toLowerCamel_of_ascii hs).trans (h ▸ (toLowerCamel_of_ascii ht).symm)
  | upperCamel => exact (toUpperCamel_of_ascii hs).trans (h ▸ (toUpperCamel_of_ascii ht).symm)

theorem hyphen_not_mem_word (hw : IsAscii w) (h : '-' ∉ w) : '-' ∉ lowered w ∧ '-' ∉ capitalized w := by
  have tail {v : List Char} (hv : IsAscii v) (h : '-' ∉ v) : '-' ∉ lowered v := by
    rw [lowered_of_ascii hv, List.mem_map]
    rintro ⟨c, hc, he⟩
    have same := (letters_of_ascii (hv c hc)).1
    rw [he, beq_self_eq_true, eq_comm, beq_iff_eq] at same
    exact h (same ▸ hc)
  refine ⟨tail hw h, ?_⟩
  cases w with
  | nil => exact List.not_mem_nil
  | cons c w =>
    obtain ⟨hc, hw⟩ := List.forall_mem_cons.mp hw
    rw [List.mem_cons, not_or] at h
    rw [capitalized, LetterCase.upper_of_ascii hc, List.singleton_append, List.mem_cons, not_or]
    refine ⟨fun he => ?_, tail hw h.2⟩
    have same := (letters_of_ascii hc).2.1
    rw [← he, beq_self_eq_true, eq_comm, beq_iff_eq] at same
    exact h.1 same.symm

theorem hyphen_not_mem (c : Casing) (hs : IsAscii s) : '-' ∉ c.onChars s := by
  have words : ∀ w ∈ segments s, '-' ∉ lowered w ∧ '-' ∉ capitalized w := by
    intro w hw
    refine hyphen_not_mem_word (isAscii_of_mem_segments hs hw) fun hc => ?_
    have := not_of_mem_split hw hc
    simp at this
  have behind {ws : List (List Char)} (hws : ∀ w ∈ ws, w ∈ segments s) :
      '-' ∉ ws.flatMap capitalized := by
    rw [List.mem_flatMap]
    rintro ⟨w, hw, hc⟩
    exact (words w (hws w hw)).2 hc
  cases c with
  | upperCamel => exact behind fun w hw => hw
  | lowerCamel =>
    rw [onChars, toLowerCamel]
    cases h : segments s with
    | nil => exact List.not_mem_nil
    | cons w ws =>
      rw [List.mem_append, not_or]
      exact ⟨(words w (h ▸ List.mem_cons_self)).1, behind fun v hv => h ▸ List.mem_cons_of_mem w hv⟩

/-- A hyphen between two names is a seam: what stands behind it is put into upper camel case. So hyphens in a
row are as good as one of them, and hyphens at the end are nothing. An ASCII name keeps no hyphen, and its
letter case does not matter. -/
theorem apply_hyphen (c : Casing) (x y : String) :
    c.apply (x ++ "-" ++ y) = c.apply x ++ upperCamel.apply y ∧
    (∀ n, c.apply (x ++ hyphens (n + 1) ++ y) = c.apply (x ++ "-" ++ y) ∧
      c.apply (x ++ hyphens n) = c.apply x) ∧
    (IsAscii x.toList → '-' ∉ (c.apply x).toList ∧
      (IsAscii y.toList → x.toList.map Char.toLower = y.toList.map Char.toLower →
        c.apply x = c.apply y)) := by
  have row (n : Nat) : (hyphens n).toList = List.replicate n '-' := String.toList_ofList
  have hyphen : "-".toList = ['-'] := rfl
  simp only [← String.toList_inj, toList_apply, String.toList_append, row, hyphen, List.append_assoc,
    List.singleton_append]
  refine ⟨c.onChars_hyphen _ _, fun n => ⟨?_, c.onChars_trailing _ n⟩, fun hx =>
    ⟨c.hyphen_not_mem hx, fun hy => c.onChars_congr hx hy⟩⟩
  rw [← List.append_assoc]
  exact c.onChars_hyphens _ n _

/-- Two ways to write a name, with a character in front of a hyphen that has an upper case of two
characters in the text behind it. -/
theorem apply_hyphen_shouted :
    IsAscii "BACKGROUND--Color-".toList ∧ IsAscii "bacKgrOund--cOlor-".toList ∧
    lowerCamel.apply "BACKGROUND--Color-" = "backgroundColor" ∧
    lowerCamel.apply "BACKGROUND--Color-" = lowerCamel.apply "bacKgrOund--cOlor-" ∧
    '-' ∉ (lowerCamel.apply "BACKGROUND--Color-").toList ∧
    lowerCamel.apply ("BACKGROUND--Color-" ++ "-" ++ "ßA") = "backgroundColorSSa" := by
  have first : IsAscii "BACKGROUND--Color-".toList := by decide
  have second : IsAscii "bacKgrOund--cOlor-".toList := by decide
  have made : lowerCamel.apply "BACKGROUND--Color-" = "backgroundColor" := by decide +kernel
  obtain ⟨-, -, ascii⟩ := apply_hyphen lowerCamel "BACKGROUND--Color-" "bacKgrOund--cOlor-"
  obtain ⟨seam, -⟩ := apply_hyphen lowerCamel "BACKGROUND--Color-" "ßA"
  refine ⟨first, second, made, (ascii first).2 second (by decide), (ascii first).1, ?_⟩
  rw [seam, made]
  decide +kernel

end Casing

end StyleExports
