import StyleExports.Proofs.Passthrough
import StyleExports.Proofs.Stylesheet.Meaning
import StyleExports.Proofs.Stylesheet.Replacement

namespace StyleExports.Stylesheet

open Text

namespace Sheet

def onNewLine : Sheet → Sheet
  | .empty => .empty
  | .piece p rest => .piece (.blank ['\n']) (.piece p rest)
  | .block prelude inner closed rest => .piece (.blank ['\n']) (.block prelude inner closed rest)

/-- Whether a block goes: that of an export rule, and that of an at-rule that the export rules in it
leave empty. -/
def isDropped (prelude : List Char) (inner : Sheet) : Bool :=
  (exportSelector? prelude).isSome || isAtRule prelude && inner.hasExports && inner.isExportsOnly

def innerRemaining (prelude : List Char) (inner : Sheet) : Sheet :=
  if isAtRule prelude then inner.withoutExports else inner

/-- What is left of a sheet, one node a line. -/
def remaining : Sheet → Sheet
  | .empty => .empty
  | .piece (.blank _) rest => rest.remaining
  | .piece p rest => .piece p rest.remaining.onNewLine
  | .block prelude inner closed rest =>
    if isDropped prelude inner then rest.remaining
    else .block prelude (innerRemaining prelude inner) closed rest.remaining.onNewLine

variable {s r r' inner rest : Sheet} {prelude : List Char} {closed : Bool}

theorem remaining_piece {p : Piece} (hp : ∀ b, p ≠ .blank b) :
    (piece p rest).remaining = piece p rest.remaining.onNewLine := by
  cases p with
  | blank b => exact absurd rfl (hp b)
  | _ => rfl

/-- A sheet node by node: blanks, other pieces, blocks that go and blocks that stay. -/
theorem node_induction {motive : Sheet → Prop} (empty : motive empty)
    (blank : ∀ b rest, motive rest → motive (piece (.blank b) rest))
    (piece : ∀ p rest, (∀ b, p ≠ .blank b) → motive rest → motive (piece p rest))
    (dropped : ∀ prelude inner closed rest, isDropped prelude inner = true → motive rest →
      motive (block prelude inner closed rest))
    (block : ∀ prelude inner closed rest, isDropped prelude inner = false → motive rest →
      motive (block prelude inner closed rest))
    (s : Sheet) : motive s := by
  induction s with
  | empty => exact empty
  | piece p rest ih =>
    cases p with
    | blank b => exact blank b rest ih
    | comment t => exact piece (.comment t) rest (by simp) ih
    | statement t semicolon => exact piece (.statement t semicolon) rest (by simp) ih
    | stray => exact piece .stray rest (by simp) ih
  | block prelude inner closed rest _ ih =>
    cases hd : isDropped prelude inner with
    | true => exact dropped prelude inner closed rest hd ih
    | false => exact block prelude inner closed rest hd ih

theorem toText_onNewLine (s : Sheet) :
    s.onNewLine.toText = if s = .empty then [] else '\n' :: s.toText := by
  cases s <;> simp [onNewLine, toText, Piece.toText]

theorem join_cons (w : List Char) (ws : List (List Char)) :
    join ['\n'] (w :: ws) = w ++ if ws = [] then [] else '\n' :: join ['\n'] ws := by
  cases ws with
  | nil => simp [join]
  | cons v ws => simp [join]

theorem passthrough_kept (h : isDropped prelude inner = false) :
    (block prelude inner closed rest).passthrough =
      (ofBlock prelude (innerRemaining prelude inner) closed).toText :: rest.passthrough := by
  rw [passthrough_block, if_neg (by simpa [isDropped] using h)]
  have hs : exportSelector? prelude = none := by
    cases he : exportSelector? prelude with
    | none => rfl
    | some e => simp [isDropped, he] at h
  simp only [ofBlock, withoutExports, hs]
  rfl

theorem passthrough_dropped (h : isDropped prelude inner = true) :
    (block prelude inner closed rest).passthrough = rest.passthrough := by
  rw [isDropped] at h
  rw [passthrough_block, if_pos h, List.nil_append]

theorem passthrough_piece {p : Piece} (hp : ∀ b, p ≠ .blank b) :
    (piece p rest).passthrough = p.toText :: rest.passthrough := by
  cases p with
  | blank b => exact absurd rfl (hp b)
  | _ => rfl

/-- The text of what is left is what passes through. -/
theorem toText_remaining (s : Sheet) : s.remaining.toText = join ['\n'] s.passthrough ∧
    (s.remaining = .empty ↔ s.passthrough = []) := by
  induction s using node_induction with
  | empty => exact ⟨rfl, by simp [remaining, passthrough]⟩
  | blank b rest ih => exact ih
  | piece p rest hp ih =>
    rw [remaining_piece hp, passthrough_piece hp, toText, toText_onNewLine, join_cons, ih.1]
    simp [ih.2]
  | dropped prelude inner closed rest hd ih =>
    rw [remaining, if_pos hd, passthrough_dropped hd]
    exact ih
  | block prelude inner closed rest hd ih =>
    rw [remaining, if_neg (by simp [hd]), passthrough_kept hd, toText_block, toText_onNewLine,
      join_cons, ih.1]
    simp [ih.2]

theorem onNewLine_of_ne (h : s ≠ .empty) : s.onNewLine = .piece (.blank ['\n']) s := by
  cases s with
  | empty => exact absurd rfl h
  | _ => rfl

theorem flatten_ne_nil (h : s ≠ .empty) : s.flatten ≠ [] := by
  cases s with
  | empty => exact absurd rfl h
  | _ => simp [flatten]

theorem Replaces.onNewLine (h : Replaces r' r) : Replaces r'.onNewLine r := by
  by_cases hr : r' = .empty
  · subst hr
    exact h
  rw [onNewLine_of_ne hr]
  refine ⟨fun {ts us} hf => ⟨fun hb => ?_, fun hn => ?_⟩, fun {ts us} hf hu hl => ?_⟩
  · exact (h.follows hf).brace hb
  · have nothing := (h.follows hf).nothing hn
    exact absurd (List.append_eq_nil_iff.mp nothing).1 (flatten_ne_nil hr)
  · have blank : (Token.blank ['\n']).Settled := Token.settled_blank (by simp [isSpace])
    exact ⟨.inl blank, h.legible hf hu hl⟩

theorem replaces_innerRemaining (prelude : List Char) (inner : Sheet) :
    Replaces (innerRemaining prelude inner) inner := by
  unfold innerRemaining
  split
  · rw [withoutExports_eq]
    exact replaces_without _ inner
  · exact .refl inner

theorem replaces_remaining (s : Sheet) : Replaces s.remaining s := by
  induction s using node_induction with
  | empty => exact .refl .empty
  | blank b rest ih => exact ih.dropBlank b
  | piece p rest hp ih =>
    rw [remaining_piece hp]
    exact ih.onNewLine.piece p
  | dropped prelude inner closed rest hd ih =>
    rw [remaining, if_pos hd]
    exact ih.dropBlock prelude inner closed
  | block prelude inner closed rest hd ih =>
    rw [remaining, if_neg (by simp [hd])]
    exact (replaces_innerRemaining prelude inner).block ih.onNewLine prelude closed

theorem nests_onNewLine (h : Nests .top s) : Nests .top s.onNewLine := by
  cases s with
  | empty => trivial
  | _ => exact ⟨by simp, h⟩

theorem nests_innerRemaining (prelude : List Char) {w : Place} (h : Nests w inner) :
    Nests w (innerRemaining prelude inner) := by
  unfold innerRemaining
  split
  · rw [withoutExports_eq]
    exact nests_without _ h
  · exact h

theorem nests_remaining (h : Nests .top s) : Nests .top s.remaining := by
  induction s using node_induction with
  | empty => trivial
  | blank b rest ih => exact ih h.2
  | piece p rest hp ih =>
    rw [remaining_piece hp]
    exact ⟨h.1, nests_onNewLine (ih h.2)⟩
  | dropped prelude inner closed rest hd ih =>
    rw [remaining, if_pos hd]
    cases closed with
    | true => exact ih h.2
    | false =>
      obtain ⟨-, -, rfl⟩ := h
      trivial
  | block prelude inner closed rest hd ih =>
    rw [remaining, if_neg (by simp [hd])]
    cases closed with
    | true => exact ⟨nests_innerRemaining prelude h.1, nests_onNewLine (ih h.2)⟩
    | false =>
      obtain ⟨hw, hi, rfl⟩ := h
      exact ⟨hw, nests_innerRemaining prelude hi, rfl⟩

/-- What is left is what its text reads as. -/
theorem isRead_remaining (h : s.IsRead) : s.remaining.IsRead :=
  h.replaced (replaces_remaining s) (nests_remaining h.nests)

theorem hasExports_onNewLine (s : Sheet) : s.onNewLine.hasExports = s.hasExports := by
  cases s <;> rfl

theorem hasExports_withoutExports (s : Sheet) : s.withoutExports.hasExports = false := by
  induction s with
  | empty => rfl
  | piece p rest ih => exact ih
  | block prelude inner closed rest ihi ihr =>
    rw [withoutExports]
    cases he : exportSelector? prelude with
    | some e => exact ihr
    | none =>
      cases ha : isAtRule prelude <;> simp [hasExports, he, ha, ihi, ihr]

/-- No export rule is left, and none comes about. -/
theorem hasExports_remaining (s : Sheet) : s.remaining.hasExports = false := by
  induction s using node_induction with
  | empty => rfl
  | blank b rest ih => exact ih
  | piece p rest hp ih =>
    rw [remaining_piece hp]
    exact (hasExports_onNewLine _).trans ih
  | dropped prelude inner closed rest hd ih =>
    rw [remaining, if_pos hd]
    exact ih
  | block prelude inner closed rest hd ih =>
    have hs : (exportSelector? prelude).isSome = false := by
      rw [isDropped, Bool.or_eq_false_iff] at hd
      exact hd.1
    have hi : (isAtRule prelude && (innerRemaining prelude inner).hasExports) = false := by
      unfold innerRemaining
      cases isAtRule prelude with
      | true => exact hasExports_withoutExports inner
      | false => rfl
    rw [remaining, if_neg (by simp [hd]), hasExports, hs, hi, hasExports_onNewLine, ih]
    rfl

def nodeTexts : Sheet → List (List Char)
  | .empty => []
  | .piece (.blank _) rest => rest.nodeTexts
  | .piece p rest => p.toText :: rest.nodeTexts
  | .block prelude inner closed rest =>
    (ofBlock prelude inner closed).toText :: rest.nodeTexts

theorem nodeTexts_onNewLine (s : Sheet) : s.onNewLine.nodeTexts = s.nodeTexts := by
  cases s <;> rfl

theorem nodeTexts_piece {p : Piece} (hp : ∀ b, p ≠ .blank b) :
    (piece p rest).nodeTexts = p.toText :: rest.nodeTexts := by
  cases p with
  | blank b => exact absurd rfl (hp b)
  | _ => rfl

theorem nodeTexts_remaining (s : Sheet) : s.remaining.nodeTexts = s.passthrough := by
  induction s using node_induction with
  | empty => rfl
  | blank b rest ih => exact ih
  | piece p rest hp ih =>
    rw [remaining_piece hp, nodeTexts_piece hp, nodeTexts_onNewLine, ih, passthrough_piece hp]
  | dropped prelude inner closed rest hd ih =>
    rw [remaining, if_pos hd, ih, passthrough_dropped hd]
  | block prelude inner closed rest hd ih =>
    rw [remaining, if_neg (by simp [hd]), nodeTexts, nodeTexts_onNewLine, ih, passthrough_kept hd]

theorem withoutExports_of_not_hasExports (h : s.hasExports = false) : s.withoutExports = s := by
  induction s with
  | empty => rfl
  | piece p rest ih => exact congrArg (piece p) (ih h)
  | block prelude inner closed rest ihi ihr =>
    rw [hasExports, Bool.or_eq_false_iff, Bool.or_eq_false_iff] at h
    obtain ⟨⟨hs, hi⟩, hr⟩ := h
    have none : exportSelector? prelude = none := by simpa using hs
    simp only [withoutExports, none, ihr hr]
    cases ha : isAtRule prelude with
    | true => simp [ihi (by simpa [ha] using hi)]
    | false => rfl

theorem passthrough_of_not_hasExports (h : s.hasExports = false) : s.passthrough = s.nodeTexts := by
  induction s using node_induction with
  | empty => rfl
  | blank b rest ih => exact ih h
  | piece p rest hp ih => rw [passthrough_piece hp, nodeTexts_piece hp, ih h]
  | dropped prelude inner closed rest hd ih =>
    rw [hasExports, Bool.or_eq_false_iff, Bool.or_eq_false_iff] at h
    rw [isDropped, h.1.1, h.1.2] at hd
    simp at hd
  | block prelude inner closed rest hd ih =>
    rw [hasExports, Bool.or_eq_false_iff, Bool.or_eq_false_iff] at h
    have inside : innerRemaining prelude inner = inner := by
      unfold innerRemaining
      cases ha : isAtRule prelude with
      | true => exact withoutExports_of_not_hasExports (by simpa [ha] using h.1.2)
      | false => rfl
    rw [passthrough_kept hd, inside, nodeTexts, ih h.2]

def Spaced : Sheet → Prop
  | .empty => True
  | .piece p rest => (∀ b, p = .blank b → ∀ c ∈ b, isSpace c) ∧ rest.Spaced
  | .block _ inner _ rest => inner.Spaced ∧ rest.Spaced

theorem Sound.spaced (h : s.Sound) : s.Spaced := by
  induction s with
  | empty => trivial
  | piece p rest ih =>
    refine ⟨fun b hb => ?_, ih h.2⟩
    subst hb
    exact h.1
  | block prelude inner closed rest ihi ihr => exact ⟨ihi h.1, ihr h.2.1⟩

theorem Spaced.withoutExports (h : s.Spaced) : s.withoutExports.Spaced := by
  induction s with
  | empty => trivial
  | piece p rest ih => exact ⟨h.1, ih h.2⟩
  | block prelude inner closed rest ihi ihr =>
    rw [Sheet.withoutExports]
    split
    · exact ihr h.2
    · refine ⟨?_, ihr h.2⟩
      split
      · exact ihi h.1
      · exact h.1

theorem Spaced.onNewLine (h : s.Spaced) : s.onNewLine.Spaced := by
  cases s with
  | empty => trivial
  | _ => exact ⟨by simp [isSpace], h⟩

theorem Spaced.remaining (h : s.Spaced) : s.remaining.Spaced := by
  induction s using node_induction with
  | empty => trivial
  | blank b rest ih => exact ih h.2
  | piece p rest hp ih =>
    rw [remaining_piece hp]
    exact ⟨h.1, (ih h.2).onNewLine⟩
  | dropped prelude inner closed rest hd ih =>
    rw [Sheet.remaining, if_pos hd]
    exact ih h.2
  | block prelude inner closed rest hd ih =>
    rw [Sheet.remaining, if_neg (by simp [hd])]
    refine ⟨?_, (ih h.2).onNewLine⟩
    unfold innerRemaining
    split
    · exact h.1.withoutExports
    · exact h.1

theorem filter_dropEndWhile (t : List Char) :
    (dropEndWhile isSpace t).filter (!isSpace ·) = t.filter (!isSpace ·) := by
  obtain ⟨e, he, ht⟩ := exists_dropEndWhile isSpace t
  have gone : e.filter (!isSpace ·) = [] := by simpa using he
  have both := congrArg (List.filter (!isSpace ·)) ht
  rw [List.filter_append, gone, List.append_nil] at both
  exact both.symm

theorem filter_toText_tidy (h : s.Spaced) :
    s.tidy.toText.filter (!isSpace ·) = s.toText.filter (!isSpace ·) := by
  refine tidy_induction (motive := fun a s => s.Spaced →
    a.toText.filter (!isSpace ·) = s.toText.filter (!isSpace ·)) ?_ ?_ ?_ ?_ ?_ s h
  · exact fun _ => rfl
  · intro b rest ih h
    have gone : b.filter (!isSpace ·) = [] := by simpa using h.1 b rfl
    rw [toText, Piece.toText, List.filter_append, gone, List.nil_append]
    exact ih h.2
  · intro t rest ih h
    have piece : (Piece.statement t false).toText = t := rfl
    have cut : (Piece.statement (dropEndWhile isSpace t) false).toText =
        dropEndWhile isSpace t := rfl
    rw [toText, toText, piece, cut, List.filter_append, List.filter_append, ih h.2,
      filter_dropEndWhile]
  · intro p rest ih h
    rw [toText, toText, List.filter_append, List.filter_append, ih h.2]
  · intro prelude inner closed rest ihi ihr h
    have inside := ihi h.1
    have behind := ihr h.2
    simp only [toText, List.filter_append, List.filter_cons, inside, behind]

theorem filter_nodeTexts_tidy (h : s.Spaced) :
    s.tidy.nodeTexts.map (·.filter (!isSpace ·)) = s.nodeTexts.map (·.filter (!isSpace ·)) := by
  refine tidy_induction (motive := fun a s => s.Spaced →
    a.nodeTexts.map (·.filter (!isSpace ·)) = s.nodeTexts.map (·.filter (!isSpace ·)))
    ?_ ?_ ?_ ?_ ?_ s h
  · exact fun _ => rfl
  · exact fun _ _ ih h => ih h.2
  · intro t rest ih h
    have hp (u : List Char) : ∀ b, Piece.statement u false ≠ .blank b := by simp
    rw [nodeTexts_piece (hp _), nodeTexts_piece (hp _), List.map_cons, List.map_cons, ih h.2]
    exact congrArg (· :: _) (filter_dropEndWhile t)
  · intro p rest ih h
    by_cases hp : ∀ b, p ≠ .blank b
    · rw [nodeTexts_piece hp, nodeTexts_piece hp, List.map_cons, List.map_cons, ih h.2]
    · obtain ⟨b, rfl⟩ : ∃ b, p = .blank b := by simpa using hp
      exact ih h.2
  · intro prelude inner closed rest _ ih h
    have own : (ofBlock prelude inner closed).Spaced := ⟨h.1, trivial⟩
    have node := filter_toText_tidy own
    rw [nodeTexts, nodeTexts, List.map_cons, List.map_cons, ih h.2]
    exact congrArg (· :: _) node

/-- The ranges of the nodes at the top of a text are those of their texts. -/
theorem map_ranges {s : List Char} {a b : Nat} {sheet : Sheet} (h : StandsAt s sheet.toText a b) :
    (sheet.ranges a).map (fun r => keepAt r.covers 0 s) = sheet.nodeTexts := by
  have node {w : List Char} {c d : Nat} (hw : StandsAt s w c d) :
      keepAt (Range.mk c d).covers 0 s = w := by
    have all := keepAt_covers (fun _ => true) hw
    simpa [keepAt_true] using all
  induction sheet generalizing a with
  | empty => rfl
  | piece p rest ih =>
    have behind := ih h.right
    cases p with
    | blank t => exact behind
    | _ => exact congrArg₂ (· :: ·) (node h.left) behind
  | block prelude inner closed rest _ ih =>
    rw [toText_block] at h
    have behind := ih h.right
    rw [ranges, nodeTexts, ← size_ofBlock]
    exact congrArg₂ (· :: ·) (node h.left) behind

end Sheet

end StyleExports.Stylesheet
