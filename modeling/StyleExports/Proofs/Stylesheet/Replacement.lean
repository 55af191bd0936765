import StyleExports.Proofs.Stylesheet.Cutting
import StyleExports.Proofs.Stylesheet.Nesting

namespace StyleExports.Stylesheet

/-- Whether tokens may stand behind an item that others stood behind: if a closing brace came next it
still does, and if nothing came nothing does. -/
structure Follows (ts us : List Token) : Prop where
  brace : closesNext ts = true → closesNext us = true
  nothing : ts = [] → us = []

section

variable {ts us : List Token} {t : Token}

theorem Follows.refl (ts : List Token) : Follows ts ts := ⟨id, id⟩

theorem Token.Precedes.mono (h : t.Precedes ts) (hf : Follows ts us) : t.Precedes us := by
  rcases h with settled | ⟨cut, next⟩ | ⟨last, nothing⟩
  · exact .inl settled
  · exact .inr (.inl ⟨cut, hf.brace next⟩)
  · exact .inr (.inr ⟨last, hf.nothing nothing⟩)

theorem Follows.cons (t : Token) (h : Follows ts us) : Follows (t :: ts) (t :: us) where
  brace hb := by
    cases t with
    | blank b =>
      rw [closesNext, Bool.and_eq_true] at hb ⊢
      exact ⟨hb.1, h.brace hb.2⟩
    | closing => rfl
    | _ => simp [closesNext] at hb
  nothing hn := absurd hn (List.cons_ne_nil t ts)

theorem Legible.right {ts us : List Token} (h : Legible (ts ++ us)) : Legible us := by
  induction ts with
  | nil => exact h
  | cons t ts ih => exact ih h.2

theorem legible_closing (h : Legible us) (closed : Bool) :
    Legible (Sheet.closingTokens closed ++ us) := by
  cases closed with
  | true => exact ⟨.inl Token.settled_closing, h⟩
  | false => exact h

theorem Follows.closing (h : Follows ts us) (closed : Bool) :
    Follows (Sheet.closingTokens closed ++ ts) (Sheet.closingTokens closed ++ us) := by
  cases closed with
  | true => exact h.cons .closing
  | false => exact h

end

namespace Sheet

/-- Wherever the second sheet can be read the first can be read in its place. -/
structure Replaces (s' s : Sheet) : Prop where
  follows : ∀ {ts us}, Follows ts us → Follows (s.flatten ++ ts) (s'.flatten ++ us)
  legible : ∀ {ts us}, Follows ts us → Legible us → Legible (s.flatten ++ ts) →
    Legible (s'.flatten ++ us)

variable {s s' i i' r r' : Sheet} {prelude : List Char} {closed : Bool}

theorem flatten_block_append (prelude : List Char) (i : Sheet) (closed : Bool) (r : Sheet)
    (ts : List Token) : (block prelude i closed r).flatten ++ ts =
      .opening prelude :: (i.flatten ++ (closingTokens closed ++ (r.flatten ++ ts))) := by
  simp [flatten]

theorem Replaces.piece (h : Replaces r' r) (p : Piece) :
    Replaces (piece p r') (piece p r) where
  follows hf := (h.follows hf).cons p.token
  legible hf hu hl := ⟨hl.1.mono (h.follows hf), h.legible hf hu hl.2⟩

theorem Replaces.block (hi : Replaces i' i) (hr : Replaces r' r) (prelude : List Char)
    (closed : Bool) : Replaces (block prelude i' closed r') (block prelude i closed r) where
  follows hf := by
    rw [flatten_block_append, flatten_block_append]
    exact (hi.follows ((hr.follows hf).closing closed)).cons (.opening prelude)
  legible hf hu hl := by
    rw [flatten_block_append] at hl ⊢
    have behind := (hr.follows hf).closing closed
    have rest := hr.legible hf hu (hl.2.right.right)
    exact ⟨hl.1.mono (hi.follows behind),
      hi.legible behind (legible_closing rest closed) hl.2⟩

theorem Replaces.refl (s : Sheet) : Replaces s s := by
  induction s with
  | empty => exact ⟨id, fun _ hu _ => hu⟩
  | piece p rest ih => exact ih.piece p
  | block prelude inner closed rest ihi ihr => exact ihi.block ihr prelude closed

theorem Replaces.dropBlock (h : Replaces r' r) (prelude : List Char) (i : Sheet) (closed : Bool) :
    Replaces r' (.block prelude i closed r) where
  follows hf := by
    rw [flatten_block_append]
    exact ⟨fun hb => by simp [closesNext] at hb, fun hn => absurd hn (List.cons_ne_nil _ _)⟩
  legible hf hu hl := by
    rw [flatten_block_append] at hl
    exact h.legible hf hu hl.2.right.right

theorem Replaces.dropBlank (h : Replaces r' r) (b : List Char) :
    Replaces r' (.piece (.blank b) r) where
  follows hf := by
    refine ⟨fun hb => (h.follows hf).brace ?_, fun hn => absurd hn (List.cons_ne_nil _ _)⟩
    change (b.all Text.isSpace && closesNext (r.flatten ++ _)) = true at hb
    rw [Bool.and_eq_true] at hb
    exact hb.2
  legible hf hu hl := h.legible hf hu hl.2

theorem replaces_without (q : Export.Selector → Bool) (s : Sheet) : Replaces (s.without q) s := by
  induction s with
  | empty => exact .refl empty
  | piece p rest ih => exact ih.piece p
  | block prelude inner closed rest ihi ihr =>
    rw [without]
    split
    · exact ihr.dropBlock prelude inner closed
    · split
      · exact ihi.block ihr prelude closed
      · exact (Replaces.refl inner).block ihr prelude closed

theorem nests_without (q : Export.Selector → Bool) {s : Sheet} {w : Place} (h : Nests w s) :
    Nests w (s.without q) := by
  induction s generalizing w with
  | empty => trivial
  | piece p rest ih => exact ⟨h.1, ih h.2⟩
  | block prelude inner closed rest ihi ihr =>
    rw [without]
    cases closed with
    | true =>
      split
      · exact ihr h.2
      · refine ⟨?_, ihr h.2⟩
        split
        · exact ihi h.1
        · exact h.1
    | false =>
      obtain ⟨hw, hi, rfl⟩ := h
      split
      · trivial
      · refine ⟨hw, ?_, rfl⟩
        split
        · exact ihi hi
        · exact hi

theorem IsRead.replaced (h : s.IsRead) (hr : Replaces s' s) (hn : Nests .top s') : s'.IsRead where
  nests := hn
  legible := by
    have whole : Legible (s.flatten ++ []) := by
      rw [List.append_nil]
      exact h.legible
    have read := hr.legible (.refl []) trivial whole
    rwa [List.append_nil] at read

theorem IsRead.without (h : s.IsRead) (q : Export.Selector → Bool) : (s.without q).IsRead :=
  h.replaced (replaces_without q s) (nests_without q h.nests)

end Sheet

end StyleExports.Stylesheet
