import StyleExports.Proofs.Stylesheet.Cutting
import StyleExports.Proofs.Stylesheet.Nesting
import StyleExports.Proofs.Stylesheet.Tiling
import StyleExports.Proofs.Stylesheet.Widening

namespace StyleExports.Stylesheet

open Text

namespace Token

/-- An item that a brace cuts short is read the same where the text ends in place of the brace. -/
theorem IsItem.next_cut {c : Char} {t : List Char} (h : IsItem (c :: t) '}') :
    next c t = (.statement (c :: t) false, []) := by
  have begins : BeginsItem (c :: t) := by
    refine ⟨h.begins.1, h.begins.2.1, fun hn => h.begins.2.2 ⟨hn.1, ?_⟩⟩
    change (t ++ ['}']).head? = some '*'
    rw [List.head?_append, hn.2]
    rfl
  rw [next_of_beginsItem begins, Scan.upTo_of_passes h.passes]
  rfl

theorem tokens_alone (c : Char) (s : List Char) : tokens (next c s).1.toText = [(next c s).1] := by
  by_cases last : (next c s).2 = []
  · have read := tokens_next c s (r := []) (by rw [last])
    rwa [List.append_nil, tokens_nil] at read
  by_cases hc : isSpace c = true
  · have blanks : ∀ d ∈ s.takeWhile isSpace, isSpace d = true := fun d hd => List.mem_takeWhile_imp hd
    rw [next_of_isSpace hc, toText, tokens_cons, next_of_isSpace hc,
      List.takeWhile_eq_self_iff.mpr blanks, List.dropWhile_eq_nil_iff.mpr blanks, tokens_nil]
  by_cases hb : c = '}'
  · subst hb
    exact (tokens_brace []).trans (by rw [tokens_nil]; rfl)
  by_cases hn : c = '/' ∧ s.head? = some '*'
  · obtain ⟨rfl, hs⟩ := hn
    obtain ⟨u, rfl⟩ := List.head?_eq_some_iff.mp hs
    have comment (v : List Char) : next '/' ('*' :: v) =
        (.comment ('/' :: '*' :: (commentRest false v).1), (commentRest false v).2) := by
      simp [next, isSpace]
    rw [comment] at last ⊢
    obtain ⟨d, v, hv⟩ := List.exists_cons_of_ne_nil last
    have whole := commentRest_of_cons hv []
    rw [List.append_nil] at whole
    rw [toText, tokens_cons, comment, whole, tokens_nil]
  have begins : BeginsItem (c :: s) := ⟨by simpa using hc, hb, hn⟩
  obtain ⟨t, rest, hu, hi⟩ := exists_upTo begins
  rw [hi] at last ⊢
  cases rest with
  | nil => exact absurd rfl last
  | cons d v =>
    have item := isItem_upTo begins hu
    have delimiter := item.delimiter
    simp only [isDelimiter, Bool.or_eq_true, beq_iff_eq] at delimiter
    rcases delimiter with (rfl | rfl) | rfl
    · simpa [ofItem, toText] using item.tokens []
    · simpa [ofItem, toText] using item.tokens []
    · cases t with
      | nil => exact absurd rfl item.begins.2.1
      | cons e t =>
        change tokens (e :: t) = [.statement (e :: t) false]
        rw [tokens_cons, item.next_cut, tokens_nil]

end Token

/-- A text that is cut between two tokens has the tokens of both parts. -/
theorem tokens_parted {s : List Char} {us vs : List Token} (h : tokens s = us ++ vs) :
    tokens (us.flatMap Token.toText) = us ∧ tokens (vs.flatMap Token.toText) = vs := by
  induction us generalizing s with
  | nil =>
    rw [List.nil_append] at h
    rw [← h, flatMap_toText_tokens]
    exact ⟨tokens_nil, rfl⟩
  | cons t us ih =>
    cases s with
    | nil => simp at h
    | cons c s =>
      rw [tokens_cons, List.cons_append] at h
      obtain ⟨rfl, rest⟩ := List.cons.inj h
      obtain ⟨left, right⟩ := ih rest
      refine ⟨?_, right⟩
      rw [List.flatMap_cons]
      cases us with
      | nil =>
        rw [List.flatMap_nil, List.append_nil]
        exact Token.tokens_alone c s
      | cons u us =>
        have text := flatMap_toText_tokens (Token.next c s).2
        rw [rest, List.flatMap_append] at text
        have some : u.toText ≠ [] := (sound_of_mem_tokens (by rw [rest]; simp)).1
        have head : ((u :: us).flatMap Token.toText).head? = (Token.next c s).2.head? := by
          rw [← text, List.flatMap_cons, List.append_assoc, List.head?_append_of_ne_nil _ some,
            List.head?_append_of_ne_nil _ some]
        rw [Token.tokens_next c s head, left]

namespace Sheet

variable {s t : Sheet} {nested : Bool} {n : Nat}

theorem Nests.parted {w : Place} (h : Nests w (s ++ t)) : Nests w s ∧ Nests w t := by
  induction s with
  | empty => exact ⟨trivial, h⟩
  | piece p rest ih => exact ⟨⟨h.1, (ih h.2).1⟩, (ih h.2).2⟩
  | block prelude inner closed rest _ ih =>
    cases closed with
    | true => exact ⟨⟨h.1, (ih h.2).1⟩, (ih h.2).2⟩
    | false =>
      cases rest with
      | empty =>
        obtain rfl : t = .empty := h.2.2
        exact ⟨h, trivial⟩
      | _ => cases h.2.2

/-- What is read from a text is read from its parts, wherever the sheet is cut. -/
theorem ofText_parted {u : List Char} (h : ofText u = s ++ t) :
    ofText s.toText = s ∧ ofText t.toText = t := by
  have nests : Nests .top (s ++ t) := by
    rw [← h]
    exact nests_ofTokens _
  have tokens : tokens u = s.flatten ++ t.flatten := by
    rw [← flatten_append, ← h, ofText, flatten_ofTokens]
  obtain ⟨left, right⟩ := tokens_parted tokens
  rw [flatMap_toText_flatten] at left right
  rw [ofText, ofText, left, right]
  exact ⟨ofTokens_flatten nests.parted.1, ofTokens_flatten nests.parted.2⟩

theorem unclosed_append (s t : Sheet) : (s ++ t).unclosed = s.unclosed + t.unclosed := by
  induction s with
  | empty => exact (Nat.zero_add _).symm
  | piece p rest ih => exact ih
  | block prelude inner closed rest _ ih =>
    rw [block_append, unclosed, ih, unclosed]
    omega

theorem Sound.unclosed_eq_zero (h : (s ++ t).Sound) (ht : t ≠ .empty) : s.unclosed = 0 := by
  induction s with
  | empty => rfl
  | piece p rest ih => exact ih h.2
  | block prelude inner closed rest _ ih =>
    obtain ⟨-, behind, hc, ho⟩ := h
    cases closed with
    | true => simp [unclosed, hc rfl, ih behind]
    | false =>
      cases rest with
      | empty => exact absurd (ho rfl) ht
      | _ => cases ho rfl

/-- Where a range ends, the sheet may be cut. -/
theorem exists_append_of_mem_ranges {r : Range} (h : r ∈ s.ranges n) :
    ∃ u v, s = u ++ v ∧ n + size u.toText = r.stop := by
  induction s generalizing n with
  | empty => simp [ranges] at h
  | piece p rest ih =>
    have behind (hr : r ∈ rest.ranges (n + size p.toText)) :
        ∃ u v, piece p rest = u ++ v ∧ n + size u.toText = r.stop := by
      obtain ⟨u, v, rfl, stop⟩ := ih hr
      exact ⟨piece p u, v, rfl, by rw [toText, size_append, ← Nat.add_assoc, stop]⟩
    cases p with
    | blank b => exact behind h
    | _ =>
      rcases List.mem_cons.mp h with rfl | hr
      · exact ⟨piece _ empty, rest, rfl, by rw [toText, toText, List.append_nil]⟩
      · exact behind hr
  | block prelude inner closed rest _ ih =>
    rw [ranges, ← size_ofBlock] at h
    rcases List.mem_cons.mp h with rfl | hr
    · exact ⟨ofBlock prelude inner closed, rest, rfl, rfl⟩
    · obtain ⟨u, v, rfl, stop⟩ := ih hr
      exact ⟨block prelude inner closed u, v, rfl, by
        rw [toText_block, size_append, ← Nat.add_assoc, stop]⟩

end Sheet

def Outline.moved (g : Nat → Nat) : Outline → Outline
  | .empty => .empty
  | .rule selector ds inner range rest =>
    .rule selector (ds.map (·.moved g)) (inner.moved g) (range.moved g) (rest.moved g)
  | .atBlock head ds inner range rest =>
    .atBlock head (ds.map (·.moved g)) (inner.moved g) (range.moved g) (rest.moved g)
  | .atStatement head range rest => .atStatement head (range.moved g) (rest.moved g)
  | .comment range rest => .comment (range.moved g) (rest.moved g)
  | .other range rest => .other (range.moved g) (rest.moved g)

def Outline.append : Outline → Outline → Outline
  | .empty, o => o
  | .rule selector ds inner range rest, o => .rule selector ds inner range (rest.append o)
  | .atBlock head ds inner range rest, o => .atBlock head ds inner range (rest.append o)
  | .atStatement head range rest, o => .atStatement head range (rest.append o)
  | .comment range rest, o => .comment range (rest.append o)
  | .other range rest, o => .other range (rest.append o)

instance : Append Outline := ⟨Outline.append⟩

theorem Piece.moved_outlined (p : Piece) (nested : Bool) (g : Nat → Nat) (r : Range)
    (after : Outline) :
    (p.outlined nested r after).moved g = p.outlined nested (r.moved g) (after.moved g) :=
  p.outlined_cases nested
    (motive := fun node => ∀ r after, (node r after).moved g = node (r.moved g) (after.moved g))
    (fun _ _ => rfl) (fun _ _ => rfl) (fun _ _ => rfl) (fun _ _ _ => rfl) r after

theorem Piece.outlined_append (p : Piece) (nested : Bool) (r : Range) (after o : Outline) :
    p.outlined nested r after ++ o = p.outlined nested r (after ++ o) :=
  p.outlined_cases nested
    (motive := fun node => ∀ r after, node r after ++ o = node r (after ++ o))
    (fun _ _ => rfl) (fun _ _ => rfl) (fun _ _ => rfl) (fun _ _ _ => rfl) r after

namespace Sheet

theorem declarations_moved (s : Sheet) (n m : Nat) :
    s.declarations (n + m) = (s.declarations n).map (·.moved (· + m)) := by
  induction s generalizing n with
  | empty => rfl
  | piece p rest ih =>
    have stop : n + m + size p.toText = n + size p.toText + m := by omega
    rw [declarations_piece, declarations_piece, List.map_append, Piece.declared_moved, stop, ih]
    rfl
  | block prelude inner closed rest _ ih =>
    rw [declarations, declarations, ← ih]
    congr 1
    omega

theorem outline_moved (s : Sheet) (nested : Bool) (n m : Nat) :
    s.outline nested (n + m) = (s.outline nested n).moved (· + m) := by
  induction s generalizing nested n with
  | empty => rfl
  | piece p rest ih =>
    have stop : n + m + size p.toText = n + size p.toText + m := by omega
    rw [outline_piece, outline_piece, Piece.moved_outlined, stop, ih]
    rfl
  | block prelude inner closed rest ihi ihr =>
    have first : n + m + size prelude + 1 = n + size prelude + 1 + m := by omega
    have stop : n + size prelude + 1 + m + size inner.toText + size (closingText closed) =
        n + size prelude + 1 + size inner.toText + size (closingText closed) + m := by omega
    rw [outline_block, outline_block, first, stop, ihi, ihr, declarations_moved]
    cases Prelude.ofText prelude <;> rfl

theorem outline_append (s t : Sheet) (nested : Bool) (n : Nat) :
    (s ++ t).outline nested n = s.outline nested n ++ t.outline nested (n + size s.toText) := by
  induction s generalizing n with
  | empty => rfl
  | piece p rest ih =>
    have stop : n + size p.toText + size rest.toText = n + size (piece p rest).toText := by
      rw [toText, size_append, Nat.add_assoc]
    rw [piece_append, outline_piece, outline_piece, ih, Piece.outlined_append, stop]
  | block prelude inner closed rest _ ih =>
    rw [block_append, outline_block, outline_block, ih, toText_block, size_append, ← Nat.add_assoc,
      size_ofBlock]
    cases Prelude.ofText prelude <;> rfl

end Sheet

/-- Where a node ends a text may be cut: its nodes are those of the text up to there, in which no block
is open if there is more, followed by those of the rest, moved to where the rest begins. -/
theorem outline_parted {s : List Char} {r : Range} (h : r ∈ (outline s).ranges) :
    ∃ p q, s = p ++ q ∧ size p = r.stop ∧ outline s = outline p ++ (outline q).moved (· + r.stop) ∧
      (r.stop < size s → unclosedOffsets p = []) ∧
      unclosedOffsets s = unclosedOffsets p ++ (unclosedOffsets q).map (· + r.stop) := by
  rw [outline, Sheet.ranges_outline] at h
  obtain ⟨u, v, parts, stop⟩ := Sheet.exists_append_of_mem_ranges h
  rw [Nat.zero_add] at stop
  obtain ⟨left, right⟩ := Sheet.ofText_parted parts
  have text : s = u.toText ++ v.toText := by
    rw [← Sheet.toText_append, ← parts, Sheet.toText_ofText]
  have whole : size s = r.stop + size v.toText := by rw [text, size_append, stop]
  have closed : v.toText ≠ [] → u.unclosed = 0 := by
    intro hv
    have sound := Sheet.sound_ofText s
    rw [parts] at sound
    exact sound.unclosed_eq_zero fun he => hv (by rw [he]; rfl)
  refine ⟨u.toText, v.toText, text, stop, ?_, fun more => ?_, ?_⟩
  · rw [outline, outline, outline, left, right, parts, Sheet.outline_append, stop,
      Sheet.outline_moved]
  · have hv : v.toText ≠ [] := by
      intro he
      rw [he, size_nil] at whole
      omega
    rw [unclosedOffsets, left, closed hv, List.replicate_zero]
  · rw [unclosedOffsets, unclosedOffsets, unclosedOffsets, left, right, parts, Sheet.unclosed_append,
      List.map_replicate, Nat.add_comm (size v.toText), ← whole]
    by_cases hv : v.toText = []
    · have all : size u.toText = size s := by rw [text, hv, List.append_nil]
      rw [List.replicate_add, all]
    · rw [closed hv, Nat.zero_add, List.replicate_zero, List.nil_append]

/-- A rule that stands in front of other text is read apart from it. -/
theorem outline_parted_rule :
    let s := ".a\x7b\x7d b: c;".toList
    (⟨0, 4⟩ : Range) ∈ (outline s).ranges ∧
      ∃ p q, s = p ++ q ∧ size p = 4 ∧ outline s = outline p ++ (outline q).moved (· + 4) ∧
        (4 < size s → unclosedOffsets p = []) ∧
        unclosedOffsets s = unclosedOffsets p ++ (unclosedOffsets q).map (· + 4) := by
  intro s
  have rule : (⟨0, 4⟩ : Range) ∈ (outline s).ranges := by decide +kernel
  exact ⟨rule, outline_parted rule⟩

end StyleExports.Stylesheet
