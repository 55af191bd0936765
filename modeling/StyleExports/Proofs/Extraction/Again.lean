import StyleExports.Proofs.Stylesheet.Remainder

namespace StyleExports

open Text Stylesheet

namespace Stylesheet

namespace Outline

/-- The nodes side by side that are no export rules, and in the blocks of at-rules likewise. -/
def withoutExports : Outline → Outline
  | .empty => .empty
  | .rule selector ds inner range rest =>
    if isExport selector then rest.withoutExports
    else .rule selector ds inner range rest.withoutExports
  | .atBlock head ds inner range rest =>
    .atBlock head ds inner.withoutExports range rest.withoutExports
  | .atStatement head range rest => .atStatement head range rest.withoutExports
  | .comment range rest => .comment range rest.withoutExports
  | .other range rest => .other range rest.withoutExports

/-- The nodes side by side that are neither export rules nor emptied, less the export rules in
them. -/
def remaining : Outline → Outline
  | .empty => .empty
  | .rule selector ds inner range rest =>
    if isExport selector then rest.remaining else .rule selector ds inner range rest.remaining
  | .atBlock head ds inner range rest =>
    if isEmptied ds inner then rest.remaining
    else .atBlock head ds inner.withoutExports range rest.remaining
  | .atStatement head range rest => .atStatement head range rest.remaining
  | .comment range rest => .comment range rest.remaining
  | .other range rest => .other range rest.remaining

end Outline

theorem Piece.withoutExports_outlined (p : Piece) (nested : Bool) (r : Range) (after : Outline) :
    (p.outlined nested r after).withoutExports = p.outlined nested r after.withoutExports :=
  p.outlined_cases nested
    (motive := fun node => ∀ r after, (node r after).withoutExports = node r after.withoutExports)
    (fun _ _ => rfl) (fun _ _ => rfl) (fun _ _ => rfl) (fun _ _ _ => rfl) r after

theorem Piece.remaining_outlined (p : Piece) (nested : Bool) (r : Range) (after : Outline) :
    (p.outlined nested r after).remaining = p.outlined nested r after.remaining :=
  p.outlined_cases nested
    (motive := fun node => ∀ r after, (node r after).remaining = node r after.remaining)
    (fun _ _ => rfl) (fun _ _ => rfl) (fun _ _ => rfl) (fun _ _ _ => rfl) r after

namespace Sheet

theorem exportRanges_of_not_hasExports {s : Sheet} (h : s.hasExports = false) (nested : Bool)
    (n : Nat) : (s.outline nested n).exportRanges = [] := by
  have both := hasExports_eq s nested n
  rw [h] at both
  simpa using both.symm

theorem exportRules_of_not_hasExports {s : Sheet} (h : s.hasExports = false) (n : Nat) :
    s.exportRules n = [] := by
  have offsets := offset_exportRules s false n
  rw [exportRanges_of_not_hasExports h] at offsets
  exact List.map_eq_nil_iff.mp offsets

theorem map_declarations_withoutExports (s : Sheet) (n m : Nat) :
    (s.withoutExports.declarations n).map (·.declaration) =
      (s.declarations m).map (·.declaration) := by
  induction s generalizing n m with
  | empty => rfl
  | piece p rest ih =>
    rw [withoutExports, declarations_piece, declarations_piece, List.map_append, List.map_append,
      ih, p.map_declared]
  | block prelude inner closed rest _ ih =>
    rw [withoutExports]
    split
    · exact ih _ _
    · exact ih _ _

theorem unplaced_declarations_withoutExports (s : Sheet) (n m : Nat) :
    (s.withoutExports.declarations n).map PlacedDeclaration.unplaced =
      (s.declarations m).map PlacedDeclaration.unplaced :=
  PlacedDeclaration.map_unplaced (map_declarations_withoutExports s n m)

theorem outline_withoutExports (s : Sheet) (nested : Bool) (n m : Nat) :
    (s.withoutExports.outline nested n).unplaced =
      (s.outline nested m).withoutExports.unplaced := by
  induction s generalizing nested n m with
  | empty => rfl
  | piece p rest ih =>
    rw [withoutExports, outline_piece, outline_piece, p.withoutExports_outlined, p.unplaced_outlined,
      p.unplaced_outlined, ih]
  | block prelude inner closed rest ihi ihr =>
    rw [withoutExports, outline_block]
    obtain ⟨r, hp, ha, he⟩ | ⟨w, e, hp, ha, he, hw⟩ | ⟨w, hp, ha, he, hw⟩ := prelude_cases prelude
    · have declared := unplaced_declarations_withoutExports inner (n + size prelude + 1)
        (m + size prelude + 1)
      simp only [he, ha, if_true, outline_block, hp, Prelude.outlined, Outline.withoutExports,
        Outline.unplaced]
      rw [declared, ihr, ihi true _ (m + size prelude + 1)]
    · simp only [he, hp, Prelude.outlined, Outline.withoutExports, hw, if_true]
      exact ihr _ _ _
    · have declared := unplaced_declarations inner (n + size prelude + 1) (m + size prelude + 1)
      simp only [he, ha, outline_block, hp, Prelude.outlined, Outline.withoutExports, hw]
      simp only [Bool.false_eq_true, if_false, Outline.unplaced]
      rw [declared, ihr, unplaced_outline inner true _ (m + size prelude + 1)]

theorem outline_onNewLine (s : Sheet) (nested : Bool) (n : Nat) :
    (s.onNewLine.outline nested n).unplaced = (s.outline nested n).unplaced := by
  cases s with
  | empty => rfl
  | piece p rest => exact unplaced_outline (.piece p rest) nested _ n
  | block prelude inner closed rest =>
    exact unplaced_outline (.block prelude inner closed rest) nested _ n

theorem outline_remaining (s : Sheet) (n m : Nat) :
    (s.remaining.outline false n).unplaced = (s.outline false m).remaining.unplaced := by
  induction s using node_induction generalizing n m with
  | empty => rfl
  | blank b rest ih => exact ih _ _
  | piece p rest hp ih =>
    rw [remaining_piece hp, outline_piece, outline_piece, p.remaining_outlined, p.unplaced_outlined,
      p.unplaced_outlined, outline_onNewLine, ih]
  | dropped prelude inner closed rest hd ih =>
    rw [remaining, if_pos hd, outline_block, ih n]
    obtain ⟨r, hp, ha, he⟩ | ⟨w, e, hp, -, -, hw⟩ | ⟨w, -, ha, he, -⟩ := prelude_cases prelude
    · have emptied : (inner.hasExports && inner.isExportsOnly) = true := by
        simpa [isDropped, ha, he] using hd
      rw [hp, Prelude.outlined, Outline.remaining, isEmptied_eq, if_pos emptied]
    · rw [hp, Prelude.outlined, Outline.remaining, if_pos hw]
    · simp [isDropped, ha, he] at hd
  | block prelude inner closed rest hd ih =>
    rw [remaining, if_neg (by simp [hd]), outline_block, outline_block, innerRemaining]
    obtain ⟨r, hp, ha, he⟩ | ⟨w, e, -, -, he, -⟩ | ⟨w, hp, ha, he, hw⟩ := prelude_cases prelude
    · have kept : ¬ (inner.hasExports && inner.isExportsOnly) = true := by
        simpa [isDropped, ha, he] using hd
      have declared := unplaced_declarations_withoutExports inner (n + size prelude + 1)
        (m + size prelude + 1)
      rw [hp, Prelude.outlined, Prelude.outlined, Outline.remaining, isEmptied_eq, if_neg kept,
        if_pos ha, Outline.unplaced, Outline.unplaced, declared, outline_onNewLine, ih,
        outline_withoutExports inner true _ (m + size prelude + 1)]
    · simp [isDropped, he] at hd
    · have declared := unplaced_declarations inner (n + size prelude + 1) (m + size prelude + 1)
      rw [hp, Prelude.outlined, Prelude.outlined, Outline.remaining, if_neg (by simp [ha]),
        if_neg (by simp [hw]), Outline.unplaced, Outline.unplaced, declared, outline_onNewLine, ih,
        unplaced_outline inner true _ (m + size prelude + 1)]

end Sheet

end Stylesheet

namespace Extraction

def passedOn (f : Option (String → String)) (s : List Char) : List Char :=
  (ofTextWith f s).extract.passthrough.toList

theorem passedOn_eq (f : Option (String → String)) (s : List Char) :
    passedOn f s = join ['\n'] (Sheet.ofText s).passthrough := String.toList_ofList

theorem tidy_passedOn (f : Option (String → String)) (s : List Char) :
    (Sheet.ofText (passedOn f s)).tidy = (Sheet.ofText s).remaining.tidy := by
  have read := Sheet.isRead_remaining (Sheet.isRead_ofText s)
  rw [passedOn_eq, ← (Sheet.toText_remaining _).1]
  exact Sheet.tidy_ofText_toText read

theorem hasExports_passedOn (f : Option (String → String)) (s : List Char) :
    (Sheet.ofText (passedOn f s)).hasExports = false := by
  rw [← Sheet.hasExports_tidy, tidy_passedOn, Sheet.hasExports_tidy]
  exact Sheet.hasExports_remaining _

/-- The nodes of what is passed on are what is left of the nodes of the text. -/
theorem outline_passedOn (f : Option (String → String)) (s : List Char) :
    (outline (passedOn f s)).unplaced = (outline s).remaining.unplaced := by
  rw [outline, ← Sheet.outline_tidy _ false 0 0, tidy_passedOn, Sheet.outline_tidy _ false 0 0]
  exact Sheet.outline_remaining _ 0 0

/-- Blanks aside, the nodes of what is passed on are the texts that it was put together from. -/
theorem nodeTexts_passedOn (f : Option (String → String)) (s : List Char) :
    (Sheet.ofText (passedOn f s)).nodeTexts.map (·.filter (!isSpace ·)) =
      (Sheet.ofText s).passthrough.map (·.filter (!isSpace ·)) := by
  have spaced := (Sheet.sound_ofText s).spaced.remaining
  have again := (Sheet.sound_ofText (passedOn f s)).spaced
  rw [← Sheet.filter_nodeTexts_tidy again, tidy_passedOn, Sheet.filter_nodeTexts_tidy spaced,
    Sheet.nodeTexts_remaining]

theorem standsAt_ofText (s : List Char) : StandsAt s (Sheet.ofText s).toText 0 (size s) := by
  rw [Sheet.toText_ofText]
  exact standsAt_self s

theorem filter_flatten_congr {ws vs : List (List Char)} {p : Char → Bool}
    (h : ws.map (·.filter p) = vs.map (·.filter p)) :
    ws.flatten.filter p = vs.flatten.filter p := by
  rw [List.filter_flatten, List.filter_flatten, h]

/-- Extracting again from what was passed on finds no export rule and nothing to say but that blocks
are not closed, and blanks aside it passes all of it on. The nodes are those that remained. -/
theorem ofTextWith_passedOn (f g : Option (String → String)) (s : List Char) :
    (ofTextWith g (passedOn f s)).extract.tree = .empty ∧
      (∀ d ∈ (ofTextWith g (passedOn f s)).diagnostics,
        ∃ span, d = Export.Finding.unclosedBlock.diagnostic span) ∧
      (passedOn g (passedOn f s)).filter (!isSpace ·) = (passedOn f s).filter (!isSpace ·) ∧
      (outline (passedOn f s)).exportRanges = [] ∧
      (outline (passedOn f s)).unplaced = (outline s).remaining.unplaced ∧
      ((outline (passedOn f s)).ranges.map fun r =>
          (keepAt r.covers 0 (passedOn f s)).filter (!isSpace ·)) =
        (outline s).remainingRanges.map fun r =>
          (keepAt (fun k => r.covers k && outside (outline s).exportRanges k) 0 s).filter
            (!isSpace ·) := by
  have nodes := nodeTexts_passedOn f s
  have outlines := outline_passedOn f s
  have joined := passedOn_eq f s
  have hasNone := hasExports_passedOn f s
  -- of the first extraction no more is needed than these four facts
  generalize passedOn f s = p at nodes outlines joined hasNone ⊢
  have ranges := Sheet.exportRanges_of_not_hasExports hasNone false 0
  have rules := Sheet.exportRules_of_not_hasExports hasNone 0
  refine ⟨?_, ?_, ?_, ranges, outlines, ?_⟩
  · change writeAll g ((Sheet.ofText p).exportRules 0) .empty = .empty
    rw [rules]
    rfl
  · intro d hd
    change d ∈ diagnosticsOn p g ((Sheet.ofText p).exportRules 0) .empty ++ unclosedDiagnostics p
      at hd
    rw [rules, diagnosticsOn, List.nil_append, unclosedDiagnostics, List.mem_map] at hd
    obtain ⟨n, -, rfl⟩ := hd
    exact ⟨_, rfl⟩
  · have all := Sheet.passthrough_of_not_hasExports hasNone
    have first : p.filter (!isSpace ·) =
        (Sheet.ofText s).passthrough.flatten.filter (!isSpace ·) := by
      rw [← filter_join, ← joined]
    rw [passedOn_eq, filter_join, all, first]
    exact filter_flatten_congr nodes
  · have now := Sheet.map_ranges (standsAt_ofText p)
    have before := Sheet.map_remainingRanges (standsAt_ofText s)
      (p := outside (outline s).exportRanges) fun _ _ _ => rfl
    rw [← Sheet.ranges_outline] at now
    rw [← now, ← before, List.map_map, List.map_map] at nodes
    exact nodes

end Extraction

end StyleExports
