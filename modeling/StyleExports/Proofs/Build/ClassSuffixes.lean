import StyleExports.Proofs.Build.ClassNames
import StyleExports.Proofs.Stylesheet.Cutting
import StyleExports.Proofs.Stylesheet.Nesting
import StyleExports.Proofs.Stylesheet.Tiling
import StyleExports.Proofs.Stylesheet.Widening

namespace StyleExports

open Text Stylesheet

namespace Compiler

/-- An underscore and six hexadecimal digits. -/
def IsSuffix (s : List Char) : Prop :=
  ∃ ds : List Char, s = '_' :: ds ∧ ds.length = 6 ∧ ∀ d ∈ ds, d ∈ "0123456789abcdef".toList

theorem isSuffix_suffix (path name : List Char) : IsSuffix (suffix path name) := by
  have digit : ∀ k < 16, Quoted.hexDigit k ∈ "0123456789abcdef".toList := by decide
  refine ⟨_, rfl, rfl, fun d hd => ?_⟩
  obtain ⟨k, -, rfl⟩ := List.mem_map.mp hd
  exact digit _ (Nat.mod_lt k (by decide))

theorem append_suffix_inj (path : List Char) {n m : List Char} :
    n ++ suffix path n = m ++ suffix path m ↔ n = m := by
  constructor
  · intro h
    exact (List.append_inj' h rfl).1
  · rintro rfl
    rfl

theorem isQuiet_of_mem_suffix {path name : List Char} {c : Char} (h : c ∈ suffix path name) :
    Scan.isQuiet c = true := by
  obtain ⟨ds, hs, -, digits⟩ := isSuffix_suffix path name
  have quiet : ∀ d ∈ "0123456789abcdef".toList, Scan.isQuiet d = true := Text.forall_mem_of_all (by decide)
  rw [hs] at h
  rcases List.mem_cons.mp h with rfl | h
  · decide
  · exact quiet c (digits c h)

theorem isQuiet_of_isClassChar {c : Char} (h : isClassChar c = true) : Scan.isQuiet c = true := by
  have blank : isBlank c = false := by
    rw [Bool.eq_false_iff]
    intro hb
    simp [isClassChar_of_isBlank hb] at h
  have marks : c ∉ ['"', '\'', '/', '*', '\\', '#', '(', ')', '[', ']', '{', '}', ';'] := by
    intro hm
    have apart : ∀ d ∈ ['"', '\'', '/', '*', '\\', '#', '(', ')', '[', ']', '{', '}', ';'],
        isClassChar d = false := Text.forall_mem_of_all (by decide)
    simp [apart c hm] at h
  simp only [List.mem_cons, List.not_mem_nil, or_false, not_or] at marks
  simp [Scan.isQuiet, isQuote, blank, marks]

variable {f : List Char → List Char} {p : Place} {s b : List Char}

theorem widens_word {w x t : List Char} (hn : w ≠ []) (hw : ∀ c ∈ w, Scan.isQuiet c = true)
    (hx : ∀ c ∈ x, Scan.isQuiet c = true) (h : Widens s t) : Widens (w ++ s) (w ++ (x ++ t)) := by
  induction w with
  | nil => exact absurd rfl hn
  | cons c w ih =>
    rw [List.forall_mem_cons] at hw
    cases w with
    | nil =>
      have widened : Widens (c :: s) (c :: (x ++ t)) := .word hw.1 hx h
      exact widened
    | cons d w => exact .cons c (ih (by simp) hw.2)

theorem widens_suffixedFrom (hf : ∀ n, ∀ c ∈ f n, Scan.isQuiet c = true) (hp : p ≠ .name)
    (s : List Char) : Widens s (suffixedFrom f p [] s) := by
  refine name_induction (motive := fun p s => Widens s (suffixedFrom f p [] s)) ?_ ?_ ?_ p hp s
  · intro p hp
    rw [suffixedFrom, if_neg hp]
    exact .nil
  · intro p c s hp hq ih
    rw [suffixedFrom_char hp hq]
    exact .cons c ih
  · intro c w v hc hw hv ih
    have chars : ∀ d ∈ c :: w, isClassChar d = true :=
      List.forall_mem_cons.mpr ⟨(next_eq_name.mp hc).1, hw⟩
    rw [suffixedFrom_name hc hw hv]
    exact widens_word (List.cons_ne_nil c w) (fun d hd => isQuiet_of_isClassChar (chars d hd))
      (hf _) ih

theorem widens_suffixed (path s : List Char) : Widens s (suffixed (suffix path) s) :=
  widens_suffixedFrom (fun _ _ => isQuiet_of_mem_suffix) (by simp) s

theorem suffixed_eq_insertAt (f : List Char → List Char) (n : Nat) (s : List Char) :
    suffixed f s = insertAt (textsAt ((uses n s).map (suffixAt f))) n s :=
  suffixedFrom_eq_insertAt f (by simp) n s

theorem inOrder_uses (n : Nat) (s : List Char) : InOrder (·.1) useEnd (uses n s) n (n + size s) :=
  inOrder_usesFrom (by simp) n s

/-- Up to its blanks, a text in front of a block has the class names of its selector. -/
theorem uses_trimEnd (n : Nat) (s : List Char) : uses n (trimEnd s) = uses n s := by
  obtain ⟨b, hb, hs⟩ := exists_dropEndWhile isBlank s
  conv_rhs => rw [hs]
  exact (usesFrom_append_blanks .outside n (trimEnd s) hb).symm

theorem suffixed_append_blanks (f : List Char → List Char) (s : List Char)
    (hb : ∀ c ∈ b, isBlank c = true) : suffixed f (s ++ b) = suffixed f s ++ b := by
  have same : uses 0 (s ++ b) = uses 0 s := usesFrom_append_blanks .outside 0 s hb
  have behind : Inserts (textsAt ((uses 0 s).map (suffixAt f))) ((uses 0 s).map (suffixAt f) ++ [])
      0 (0 + size s + size b) := fun _ _ _ => by rw [List.append_nil]
  have nothing := behind.right (b := 0 + size s) (by omega) fun e he => by
    obtain ⟨d, hd, rfl⟩ := List.mem_map.mp he
    exact ((inOrder_uses 0 s).inside d hd).2.2
  rw [suffixed_eq_insertAt f 0, same, insertAt_append, nothing.insertAt_nil,
    ← suffixed_eq_insertAt]

/-- The selector of a rule with suffixes is the selector of the rule, with suffixes. -/
theorem trimEnd_suffixed (path s : List Char) :
    trimEnd (suffixed (suffix path) s) = suffixed (suffix path) (trimEnd s) := by
  obtain ⟨b, hb, hs⟩ := exists_dropEndWhile isBlank s
  have last := (widens_suffixed path (trimEnd s)).last (last_dropEndWhile isBlank s)
  conv_lhs => rw [hs]
  exact (congrArg trimEnd (suffixed_append_blanks _ _ hb)).trans (trimEnd_pad last hb)

def suffixedPrelude (path prelude : List Char) : List Char :=
  if isAtRule prelude then prelude else suffixed (suffix path) prelude

theorem widens_refl (s : List Char) : Widens s s := by
  induction s with
  | nil => exact .nil
  | cons c s ih => exact .cons c ih

theorem widens_suffixedPrelude (path prelude : List Char) :
    Widens prelude (suffixedPrelude path prelude) := by
  unfold suffixedPrelude
  split
  · exact widens_refl prelude
  · exact widens_suffixed path prelude

theorem isAtRule_iff (s : List Char) : isAtRule s = true ↔ s.head? = some '@' := by
  unfold isAtRule AtRule.ofText?
  split
  · simp
  · rename_i h
    cases s with
    | nil => simp
    | cons c s =>
      have : c ≠ '@' := fun hc => h s (by rw [hc])
      simp [this]

theorem ofText_of_isAtRule {s : List Char} (h : isAtRule s = true) :
    ∃ r, Prelude.ofText s = .atRule r := by
  obtain ⟨r, hr⟩ := Option.isSome_iff_exists.mp h
  exact ⟨r, by rw [Prelude.ofText, hr]⟩

theorem ofText_of_not_isAtRule {s : List Char} (h : isAtRule s = false) :
    Prelude.ofText s = .rule (trimEnd s) := by
  rw [Prelude.ofText, Option.isNone_iff_eq_none.mp (Option.isSome_eq_false_iff.mp h)]

theorem suffixedPrelude_of_isAtRule {s : List Char} (path : List Char) (h : isAtRule s = true) :
    suffixedPrelude path s = s := if_pos h

/-- The text in front of a rule is that of a rule when it gets suffixes. -/
theorem ofText_suffixedPrelude {s : List Char} (path : List Char) (h : isAtRule s = false) :
    Prelude.ofText (suffixedPrelude path s) = .rule (suffixed (suffix path) (trimEnd s)) := by
  have rule : isAtRule (suffixed (suffix path) s) = false := by
    rw [Bool.eq_false_iff, Ne, isAtRule_iff, (widens_suffixed path s).head?, ← isAtRule_iff, h]
    exact Bool.false_ne_true
  rw [suffixedPrelude, if_neg (by simp [h]), ofText_of_not_isAtRule rule, trimEnd_suffixed]

theorem mapRules_block (path prelude : List Char) (inner : Sheet) (closed : Bool) (rest : Sheet) :
    mapRules (suffixed (suffix path)) (.block prelude inner closed rest) =
      .block (suffixedPrelude path prelude) (mapRules (suffixed (suffix path)) inner) closed
        (mapRules (suffixed (suffix path)) rest) := rfl

theorem flatten_mapRules (path : List Char) (sheet : Sheet) :
    (mapRules (suffixed (suffix path)) sheet).flatten =
      sheet.flatten.map (Token.mapPrelude (suffixedPrelude path)) := by
  induction sheet with
  | empty => rfl
  | piece p rest ih =>
    rw [mapRules, Sheet.flatten, Sheet.flatten, List.map_cons, ih]
    cases p <;> rfl
  | block prelude inner closed rest ihi ihr =>
    have closing : (Sheet.closingTokens closed).map (Token.mapPrelude (suffixedPrelude path)) =
        Sheet.closingTokens closed := by cases closed <;> rfl
    rw [mapRules_block, Sheet.flatten, Sheet.flatten, List.map_cons, List.map_append,
      List.map_append, closing, ihi, ihr]
    rfl

theorem nests_mapRules (f : List Char → List Char) {sheet : Sheet} {w : Sheet.Place}
    (h : sheet.Nests w) : (mapRules f sheet).Nests w := by
  induction sheet generalizing w with
  | empty => trivial
  | piece p rest ih => exact ⟨h.1, ih h.2⟩
  | block prelude inner closed rest ihi ihr =>
    cases closed with
    | true => exact ⟨ihi h.1, ihr h.2⟩
    | false =>
      obtain ⟨hw, hi, rfl⟩ := h
      exact ⟨hw, ihi hi, rfl⟩

/-- A stylesheet with suffixes is read as what was read of the stylesheet, with suffixes. -/
theorem ofText_withSuffixes (path css : List Char) :
    Sheet.ofText (withSuffixes path css) = mapRules (suffixed (suffix path)) (Sheet.ofText css) := by
  have flat := flatten_mapRules path (Sheet.ofText css)
  have nests := nests_mapRules (suffixed (suffix path)) (Sheet.isRead_ofText css).nests
  have tokens : (Sheet.ofText css).flatten = tokens css := Sheet.flatten_ofTokens _
  rw [tokens] at flat
  rw [withSuffixes, Sheet.ofText, ← Sheet.flatMap_toText_flatten, flat, List.flatMap_map,
    tokens_mapPrelude (widens_suffixedPrelude path), ← flat, Sheet.ofTokens_flatten nests]

end Compiler

end StyleExports
