import StyleExports.Export.Rule
import StyleExports.Proofs.Stylesheet.Nesting
import StyleExports.Proofs.Stylesheet.Nodes

namespace StyleExports

open Text

namespace Text

variable {s b : List Char}

theorem trim_append_blanks (s : List Char) (hb : ∀ c ∈ b, isBlank c) : trim (s ++ b) = trim s := by
  have start : trimStart (s ++ b) = if (trimStart s).isEmpty then [] else trimStart s ++ b := by
    rw [trimStart, List.dropWhile_append, List.dropWhile_eq_nil_iff.mpr hb]
    rfl
  rw [trim, start]
  split
  · rename_i h
    rw [trim, List.isEmpty_iff.mp h]
  · exact dropEndWhile_append_of_all _ hb

end Text

namespace Stylesheet

variable {t b : List Char}

theorem Declaration.cutColon?_append (t : List Char) (hb : ∀ c ∈ b, isSpace c) :
    cutColon? (t ++ b) = (cutColon? t).map fun r => (r.1, r.2 ++ b) := by
  have quiet : ∀ c ∈ b, (c == ':') = false := by
    intro c hc
    have : c ≠ ':' := by
      rintro rfl
      exact absurd (hb ':' hc) (by decide)
    simpa using this
  rcases Scan.passes_or_cut false (· == ':') .start t with passes | ⟨u, c, v, rfl, passes, ends⟩
  · have on : Scan.Passes false (· == ':') .start (t ++ b) :=
      Scan.passes_append.mpr ⟨passes, Scan.passes_of_all quiet⟩
    rw [cutColon?, cutColon?, Scan.upTo_of_passes passes, Scan.upTo_of_passes on]
    rfl
  · rw [List.append_assoc, List.cons_append, cutColon?, cutColon?, Scan.upTo_cut passes ends,
      Scan.upTo_cut passes ends]
    rfl

theorem Declaration.ofText?_append (t : List Char) (hb : ∀ c ∈ b, isSpace c) :
    ofText? (t ++ b) = ofText? t := by
  have trimmed (v : List Char) : trim (v ++ b) = trim v :=
    trim_append_blanks v fun c hc => isBlank_of_isSpace (hb c hc)
  unfold ofText?
  rw [cutColon?_append t hb]
  cases cutColon? t with
  | none => rfl
  | some r =>
    rw [Option.map_some]
    simp only [trimmed]

theorem AtRule.ofBody_append (t : List Char) (hb : ∀ c ∈ b, isSpace c) :
    ofBody (t ++ b) = ofBody t := by
  have stop : ∀ c ∈ b, isNameChar c = false := by
    intro c hc
    simp [isNameChar, isBlank_of_isSpace (hb c hc)]
  have take : b.takeWhile isNameChar = [] := by
    cases b with
    | nil => rfl
    | cons c b => rw [List.takeWhile_cons_of_neg (by simp [stop c])]
  have drop : b.dropWhile isNameChar = b :=
    dropWhile_eq_self_of_head fun c hc => stop c (List.mem_of_head? hc)
  have trimmed (v : List Char) : trim (v ++ b) = trim v :=
    trim_append_blanks v fun c hc => isBlank_of_isSpace (hb c hc)
  have name : (t ++ b).takeWhile isNameChar = t.takeWhile isNameChar := by
    rw [List.takeWhile_append, take, List.append_nil]
    split
    · rename_i h
      exact (List.IsPrefix.eq_of_length (List.takeWhile_prefix isNameChar) h).symm
    · rfl
  have params : trim ((t ++ b).dropWhile isNameChar) = trim (t.dropWhile isNameChar) := by
    rw [List.dropWhile_append, drop]
    split
    · rename_i h
      rw [List.isEmpty_iff.mp h, ← trimmed [], List.nil_append]
    · exact trimmed _
  rw [ofBody, name, params, ofBody]

theorem AtRule.ofText?_of_ne {c : Char} (hc : c ≠ '@') (s : List Char) :
    ofText? (c :: s) = none := by
  unfold ofText?
  split
  · rename_i h
    exact absurd (List.cons.inj h).1 hc
  · rfl

theorem AtRule.ofText?_append (t : List Char) (hb : ∀ c ∈ b, isSpace c) :
    ofText? (t ++ b) = ofText? t := by
  match t with
  | [] =>
    cases b with
    | nil => rfl
    | cons c b =>
      have hc : c ≠ '@' := by
        rintro rfl
        exact absurd (hb '@' List.mem_cons_self) (by decide)
      exact ofText?_of_ne hc b
  | c :: t =>
    by_cases hc : c = '@'
    · subst hc
      exact congrArg some (ofBody_append t hb)
    · rw [List.cons_append, ofText?_of_ne hc, ofText?_of_ne hc]

/-- Blanks at the end of an item say nothing. -/
theorem Statement.ofText_append (t : List Char) (hb : ∀ c ∈ b, isSpace c) :
    ofText (t ++ b) = ofText t := by
  rw [ofText, AtRule.ofText?_append t hb, Declaration.ofText?_append t hb, ofText]

theorem AtRule.ofText?_dropEndWhile (t : List Char) :
    ofText? (dropEndWhile isSpace t) = ofText? t := by
  obtain ⟨e, he, ht⟩ := exists_dropEndWhile isSpace t
  have same := ofText?_append (dropEndWhile isSpace t) he
  rwa [← ht, eq_comm] at same

theorem Statement.ofText_dropEndWhile (t : List Char) :
    ofText (dropEndWhile isSpace t) = ofText t := by
  obtain ⟨e, he, ht⟩ := exists_dropEndWhile isSpace t
  have same := ofText_append (dropEndWhile isSpace t) he
  rwa [← ht, eq_comm] at same

theorem Piece.declared_dropEndWhile (t : List Char) (semicolon : Bool) (r : Range) :
    (Piece.statement (dropEndWhile isSpace t) semicolon).declared r =
      (Piece.statement t semicolon).declared r := by
  rw [declared, declared, Statement.ofText_dropEndWhile]

theorem Piece.outlined_dropEndWhile (t : List Char) (semicolon nested : Bool) (r : Range)
    (after : Outline) : (Piece.statement (dropEndWhile isSpace t) semicolon).outlined nested r after =
      (Piece.statement t semicolon).outlined nested r after := by
  rw [outlined, outlined, Statement.ofText_dropEndWhile]

namespace Sheet

theorem hasRules_tidy (s : Sheet) : s.tidy.hasRules = s.hasRules := by
  refine tidy_induction (motive := fun a s => a.hasRules = s.hasRules) rfl ?_ ?_ ?_ ?_ s
  · exact fun _ _ ih => ih
  · intro t rest ih
    rw [hasRules, ih, AtRule.ofText?_dropEndWhile, hasRules]
  · intro p rest ih
    cases p <;> simp [hasRules, ih]
  · exact fun _ _ _ _ _ _ => rfl

theorem hasExports_tidy (s : Sheet) : s.tidy.hasExports = s.hasExports := by
  refine tidy_induction (motive := fun a s => a.hasExports = s.hasExports) rfl ?_ ?_ ?_ ?_ s
  · exact fun _ _ ih => ih
  · exact fun _ _ ih => ih
  · exact fun _ _ ih => ih
  · intro prelude inner closed rest ihi ihr
    rw [hasExports, ihi, ihr, hasExports]

theorem isExportsOnly_tidy (s : Sheet) : s.tidy.isExportsOnly = s.isExportsOnly := by
  refine tidy_induction (motive := fun a s => a.isExportsOnly = s.isExportsOnly) rfl ?_ ?_ ?_ ?_ s
  · exact fun _ _ ih => ih
  · exact fun _ _ _ => rfl
  · intro p rest ih
    cases p with
    | blank b => exact ih
    | comment t => exact ih
    | _ => rfl
  · intro prelude inner closed rest _ ih
    rw [isExportsOnly, ih, isExportsOnly]

theorem unclosed_tidy (s : Sheet) : s.tidy.unclosed = s.unclosed := by
  refine tidy_induction (motive := fun a s => a.unclosed = s.unclosed) rfl ?_ ?_ ?_ ?_ s
  · exact fun _ _ ih => ih
  · exact fun _ _ ih => ih
  · exact fun _ _ ih => ih
  · intro prelude inner closed rest ihi ihr
    rw [unclosed, ihi, ihr, unclosed]

theorem declarations_tidy (s : Sheet) (n m : Nat) :
    (s.tidy.declarations n).map (·.declaration) = (s.declarations m).map (·.declaration) := by
  refine tidy_induction (motive := fun a s => ∀ n m, (a.declarations n).map (·.declaration) =
    (s.declarations m).map (·.declaration)) ?_ ?_ ?_ ?_ ?_ s n m
  · exact fun _ _ => rfl
  · exact fun _ _ ih _ _ => ih _ _
  · intro t rest ih n m
    rw [declarations_piece, declarations_piece, List.map_append, List.map_append, ih,
      Piece.declared_dropEndWhile]
    exact congrArg (· ++ _) (Piece.map_declared _ _ _)
  · intro p rest ih n m
    rw [declarations_piece, declarations_piece, List.map_append, List.map_append, ih]
    exact congrArg (· ++ _) (Piece.map_declared _ _ _)
  · exact fun _ _ _ _ _ ih _ _ => ih _ _

theorem map_declarations (s : Sheet) (n m : Nat) :
    (s.declarations n).map (·.declaration) = (s.declarations m).map (·.declaration) :=
  (declarations_tidy s 0 n).symm.trans (declarations_tidy s 0 m)

theorem unplaced_declarations (s : Sheet) (n m : Nat) :
    (s.declarations n).map PlacedDeclaration.unplaced =
      (s.declarations m).map PlacedDeclaration.unplaced :=
  PlacedDeclaration.map_unplaced (map_declarations s n m)

/-- The outline of a sheet, wherever it stands. -/
theorem outline_tidy (s : Sheet) (nested : Bool) (n m : Nat) :
    (s.tidy.outline nested n).unplaced = (s.outline nested m).unplaced := by
  refine tidy_induction (motive := fun a s => ∀ nested n m, (a.outline nested n).unplaced =
    (s.outline nested m).unplaced) ?_ ?_ ?_ ?_ ?_ s nested n m
  · exact fun _ _ _ => rfl
  · exact fun _ _ ih _ _ _ => ih _ _ _
  · intro t rest ih nested n m
    rw [outline_piece, outline_piece, Piece.unplaced_outlined, Piece.unplaced_outlined, ih,
      Piece.outlined_dropEndWhile]
  · intro p rest ih nested n m
    rw [outline_piece, outline_piece, Piece.unplaced_outlined, Piece.unplaced_outlined, ih]
  · intro prelude inner closed rest ihi ihr nested n m
    have declared := PlacedDeclaration.map_unplaced (declarations_tidy inner (n + size prelude + 1)
      (m + size prelude + 1))
    rw [outline_block, outline_block, Prelude.unplaced_outlined, Prelude.unplaced_outlined, ihr,
      ihi _ _ (m + size prelude + 1), declared]

theorem unplaced_outline (s : Sheet) (nested : Bool) (n m : Nat) :
    (s.outline nested n).unplaced = (s.outline nested m).unplaced :=
  (outline_tidy s nested 0 n).symm.trans (outline_tidy s nested 0 m)

end Sheet

end Stylesheet

/-- A rule apart from where it stands. -/
def ExportRule.unplaced (r : ExportRule) : ExportRule := { r with offset := 0 }

/-- The export rules of a sheet, wherever it stands. -/
theorem Stylesheet.Sheet.exportRules_tidy (s : Sheet) (n m : Nat) :
    (s.tidy.exportRules n).map ExportRule.unplaced =
      (s.exportRules m).map ExportRule.unplaced := by
  refine tidy_induction (motive := fun a s => ∀ n m, (a.exportRules n).map ExportRule.unplaced =
    (s.exportRules m).map ExportRule.unplaced) ?_ ?_ ?_ ?_ ?_ s n m
  · exact fun _ _ => rfl
  · exact fun _ _ ih _ _ => ih _ _
  · exact fun _ _ ih _ _ => ih _ _
  · exact fun _ _ ih _ _ => ih _ _
  · intro prelude inner closed rest ihi ihr n m
    simp only [exportRules]
    cases exportSelector? prelude with
    | some e =>
      simp only [List.map_cons, ExportRule.unplaced, hasRules_tidy]
      rw [declarations_tidy inner _ (m + size prelude + 1)]
      exact congrArg (_ :: ·) (ihr _ _)
    | none =>
      dsimp only
      split
      · rw [List.map_append, List.map_append, ihi _ (m + size prelude + 1), ihr]
      · exact ihr _ _

end StyleExports
