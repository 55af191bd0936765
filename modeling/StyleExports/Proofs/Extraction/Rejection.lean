import StyleExports.Extraction
import StyleExports.Proofs.Stylesheet.Meaning
import StyleExports.Proofs.Stylesheet.Replacement

namespace StyleExports

open Text Stylesheet

/-- The ranges of the rejected export rules, side by side or in the blocks of at-rules only. -/
def Stylesheet.Outline.rejectedRanges (o : Outline) : List Range :=
  o.rangesOf Export.Selector.isRejected

namespace ExportRule

theorem hasErrors_pathDiagnostics (source : List Char) (f : Option (String → String))
    (r : ExportRule) : (r.pathDiagnostics source f).hasErrors = r.selector.isRejected := by
  have each (i : Export.PathIssue) (p : Span) :
      ((finding? f i).map (·.diagnostic p)).any (·.severity == .error) =
        !decide (i.kind ≠ .forbidden) := by
    unfold finding?
    cases i.kind with
    | forbidden => rfl
    | discouraged => cases f <;> rfl
  have accepted : r.isAccepted = r.issues.all (·.kind ≠ .forbidden) := rfl
  rw [isAccepted_eq, Bool.not_eq_eq_eq_not, List.not_all_eq_any_not] at accepted
  rw [accepted, Diagnostics.hasErrors, pathDiagnostics, List.any_filterMap]
  exact congrArg r.issues.any (funext fun i => each i _)

theorem hasErrors_writeDiagnostics (source : List Char) (f : Option (String → String))
    (r : ExportRule) (t : Tree) : (r.writeDiagnostics source f t).hasErrors = false := by
  simp only [writeDiagnostics]
  cases t.collision? (r.path f) <;> cases r.nested <;> rfl

theorem hasErrors_diagnostics (source : List Char) (f : Option (String → String)) (r : ExportRule)
    (t : Tree) : (r.diagnostics source f t).hasErrors = r.selector.isRejected := by
  have path := hasErrors_pathDiagnostics source f r
  have write := hasErrors_writeDiagnostics source f r t
  rw [Diagnostics.hasErrors] at path write
  rw [diagnostics, Diagnostics.hasErrors, List.any_append, path]
  split
  · rw [write, Bool.or_false]
  · exact Bool.or_false _

end ExportRule

namespace Extraction

theorem writeAll_unplaced (f : Option (String → String)) (rules : List ExportRule) (t : Tree) :
    writeAll f (rules.map ExportRule.unplaced) t = writeAll f rules t := by
  induction rules generalizing t with
  | nil => rfl
  | cons r rules ih => exact ih (r.write f t)

theorem writeAll_filter (f : Option (String → String)) (rules : List ExportRule) (t : Tree) :
    writeAll f (rules.filter (!·.selector.isRejected)) t = writeAll f rules t := by
  induction rules generalizing t with
  | nil => rfl
  | cons r rules ih =>
    have tail := ih (r.write f t)
    by_cases hr : r.selector.isRejected = true
    · rw [ExportRule.write_of_isRejected hr] at tail
      rw [List.filter_cons_of_neg (by simp [hr]), tail, writeAll, writeAll, List.foldl_cons,
        ExportRule.write_of_isRejected hr]
    · rw [List.filter_cons_of_pos (by simp [hr])]
      exact tail

theorem hasErrors_diagnosticsOn (source : List Char) (f : Option (String → String))
    (rules : List ExportRule) (t : Tree) :
    (diagnosticsOn source f rules t).hasErrors = rules.any (·.selector.isRejected) := by
  induction rules generalizing t with
  | nil => rfl
  | cons r rules ih =>
    have head := ExportRule.hasErrors_diagnostics source f r t
    have tail := ih (r.write f t)
    rw [Diagnostics.hasErrors] at head tail
    rw [diagnosticsOn, Diagnostics.hasErrors, List.any_append, head, tail, List.any_cons]

theorem hasErrors_unclosedDiagnostics (source : List Char) :
    (unclosedDiagnostics source).hasErrors = false := by
  rw [Diagnostics.hasErrors, unclosedDiagnostics, List.any_map]
  exact List.any_eq_false.mpr fun n _ => by simp [Export.Finding.diagnostic, Export.Finding.severity]

end Extraction

namespace Stylesheet.Sheet

/-- Without some export rules the others are found, apart from where they stand. -/
theorem exportRules_without (q : Export.Selector → Bool) (s : Sheet) (n m : Nat) :
    ((s.without q).exportRules n).map ExportRule.unplaced =
      ((s.exportRules m).filter (!q ·.selector)).map ExportRule.unplaced := by
  induction s generalizing n m with
  | empty => rfl
  | piece p rest ih => exact ih _ _
  | block prelude inner closed rest ihi ihr =>
    rw [without, exportRules]
    cases he : exportSelector? prelude with
    | some e =>
      by_cases hq : q e = true
      · rw [if_pos (by simpa using hq), List.filter_cons_of_neg (by simpa using hq)]
        exact ihr _ _
      · have ha := not_isAtRule_of_export he
        rw [if_neg (by simpa using hq), exportRules, he, ha,
          List.filter_cons_of_pos (by simpa using hq)]
        have same := map_declarations inner (n + size prelude + 1) (m + size prelude + 1)
        simp only [List.map_cons, ExportRule.unplaced, Bool.false_eq_true, if_false, same]
        exact congrArg (_ :: ·) (ihr _ _)
    | none =>
      rw [if_neg (by simp), exportRules, he]
      by_cases ha : isAtRule prelude = true
      · simp only [ha, if_true]
        rw [List.map_append, List.filter_append, List.map_append, ihi _ (m + size prelude + 1), ihr]
      · simp only [ha]
        exact ihr _ _

end Stylesheet.Sheet

/-- Without the text of its rejected rules a text has the other rules. -/
theorem exportRules_rejected_cut (s : List Char) :
    ((Sheet.ofText (keepAt (outside (outline s).rejectedRanges) 0 s)).exportRules 0).map
        ExportRule.unplaced =
      (((Sheet.ofText s).exportRules 0).filter (!·.selector.isRejected)).map
        ExportRule.unplaced := by
  have covers : IsOutside (outside (outline s).rejectedRanges)
      (((Sheet.ofText s).outline false 0).rangesOf Export.Selector.isRejected) 0
      (0 + size (Sheet.ofText s).toText) := fun _ _ _ => rfl
  have left := Sheet.keepAt_without covers
  rw [Sheet.toText_ofText] at left
  have read := (Sheet.isRead_ofText s).without Export.Selector.isRejected
  have again := Sheet.tidy_ofText_toText read
  rw [left, ← Sheet.exportRules_tidy _ 0 0, again, Sheet.exportRules_tidy _ 0 0,
    Sheet.exportRules_without _ _ 0 0]

theorem rejectedRanges_eq_nil_iff (s : List Char) : (outline s).rejectedRanges = [] ↔
    ∀ r ∈ (Sheet.ofText s).exportRules 0, r.selector.isRejected = false := by
  have starts := Sheet.starts_rangesOf Export.Selector.isRejected (Sheet.ofText s) false 0
  have both := congrArg (· = []) starts
  rw [Outline.rejectedRanges, outline]
  simpa [List.map_eq_nil_iff] using both

theorem hasErrors_ofTextWith (f : Option (String → String)) (s : List Char) :
    (Extraction.ofTextWith f s).diagnostics.hasErrors =
      ((Sheet.ofText s).exportRules 0).any (·.selector.isRejected) := by
  have rules := Extraction.hasErrors_diagnosticsOn s f ((Sheet.ofText s).exportRules 0) .empty
  have unclosed := Extraction.hasErrors_unclosedDiagnostics s
  rw [Diagnostics.hasErrors] at rules unclosed
  change ((Extraction.diagnosticsOn s f _ .empty ++ _).any _) = _
  rw [List.any_append, rules, unclosed, Bool.or_false]

/-- With the rejected rules cut out of it a text shares what it shares with them, and the diagnostics
on it hold an error exactly if there are such rules. -/
theorem tree_of_rejected_cut (f : Option (String → String)) (s : List Char) :
    (Extraction.ofTextWith f (keepAt (outside (outline s).rejectedRanges) 0 s)).extract.tree =
        (Extraction.ofTextWith f s).extract.tree ∧
      ((Extraction.ofTextWith f s).diagnostics.hasErrors = true ↔
        (outline s).rejectedRanges ≠ []) := by
  constructor
  · change Extraction.writeAll f _ .empty = Extraction.writeAll f _ .empty
    rw [← Extraction.writeAll_unplaced, exportRules_rejected_cut, Extraction.writeAll_unplaced,
      Extraction.writeAll_filter]
  · rw [hasErrors_ofTextWith, Ne, rejectedRanges_eq_nil_iff, List.any_eq_true]
    simp

end StyleExports
