import StyleExports.Extraction
import StyleExports.Proofs.Stylesheet.Cutting
import StyleExports.Proofs.Stylesheet.Tiling

namespace StyleExports

open Text Stylesheet

namespace Stylesheet.Sheet

variable {p : Nat → Bool} {nested : Bool} {n : Nat}
variable {prelude : List Char} {inner rest : Sheet} {closed : Bool}

theorem hasExports_eq (sheet : Sheet) (nested : Bool) (n : Nat) :
    sheet.hasExports = !(sheet.outline nested n).exportRanges.isEmpty := by
  induction sheet generalizing nested n with
  | empty => rfl
  | piece p rest ih =>
    rw [exportRanges_piece]
    exact ih nested _
  | block prelude inner closed rest ihi ihr =>
    have both (a b : List Range) : (!(a ++ b).isEmpty) = (!a.isEmpty || !b.isEmpty) := by
      cases a <;> rfl
    rw [exportRanges_block, both, ← ihr, hasExports]
    congr 1
    obtain ⟨_, hp, ha, he⟩ | ⟨w, e, hp, ha, he, hw⟩ | ⟨w, hp, ha, he, hw⟩ := prelude_cases prelude
    · simp [ofBlock, outline, hp, ha, he, Outline.exportRanges, ihi true (n + size prelude + 1)]
    · simp [ofBlock, outline, hp, he, hw, Outline.exportRanges]
    · simp [ofBlock, outline, hp, ha, he, hw, Outline.exportRanges]

theorem isExportsOnly_eq (sheet : Sheet) (n : Nat) : sheet.isExportsOnly =
    ((sheet.declarations n).isEmpty && (sheet.outline true n).isExportsOnly) := by
  induction sheet generalizing n with
  | empty => rfl
  | piece p rest ih =>
    cases p with
    | blank t => exact ih _
    | comment t => exact ih _
    | stray => simp [isExportsOnly, outline, Outline.isExportsOnly]
    | statement t semicolon =>
      simp only [isExportsOnly, declarations, outline]
      cases Statement.ofText t <;> simp [Outline.isExportsOnly]
  | block prelude inner closed rest _ ih =>
    simp only [isExportsOnly, declarations, outline]
    obtain ⟨_, hp, ha, he⟩ | ⟨w, e, hp, ha, he, hw⟩ | ⟨w, hp, ha, he, hw⟩ := prelude_cases prelude
    · simp [hp, he, Outline.isExportsOnly]
    · simp only [hp, he, hw, Outline.isExportsOnly, Option.isSome_some, Bool.true_and]
      exact ih _
    · simp [hp, he, hw, Outline.isExportsOnly]

theorem isEmptied_eq (sheet : Sheet) (n : Nat) :
    Outline.isEmptied (sheet.declarations n) (sheet.outline true n) =
      (sheet.hasExports && sheet.isExportsOnly) := by
  rw [Outline.isEmptied, hasExports_eq sheet true n, isExportsOnly_eq sheet n, Bool.and_assoc]

theorem offset_exportRules (sheet : Sheet) (nested : Bool) (n : Nat) :
    (sheet.exportRules n).map (·.offset) =
      (sheet.outline nested n).exportRanges.map (·.start) := by
  have starts := starts_rangesOf (fun _ => true) sheet nested n
  rw [List.filter_true] at starts
  rw [Outline.exportRanges_eq, starts]

theorem emptiedRanges_piece (q : Piece) : ((piece q rest).outline nested n).emptiedRanges =
    (rest.outline nested (n + size q.toText)).emptiedRanges := by
  rw [outline_piece]
  exact q.outlined_cases nested
    (motive := fun node => ∀ r after, (node r after).emptiedRanges = after.emptiedRanges)
    (fun _ _ => rfl) (fun _ _ => rfl) (fun _ _ => rfl) (fun _ _ _ => rfl) _ _

theorem emptiedRanges_block : ((block prelude inner closed rest).outline nested n).emptiedRanges =
    ((ofBlock prelude inner closed).outline nested n).emptiedRanges ++
      (rest.outline nested (n + size (ofBlock prelude inner closed).toText)).emptiedRanges := by
  rw [size_ofBlock]
  obtain ⟨_, hp, -⟩ | ⟨w, e, hp, -⟩ | ⟨w, hp, -⟩ := prelude_cases prelude
  · simp only [ofBlock, outline, hp, Outline.emptiedRanges]
    split <;> rfl
  · simp [ofBlock, outline, hp, Outline.emptiedRanges]
  · simp [ofBlock, outline, hp, Outline.emptiedRanges]

theorem emptiedRanges_ofBlock : ((ofBlock prelude inner closed).outline nested n).emptiedRanges =
    if isAtRule prelude && inner.hasExports && inner.isExportsOnly then
      [⟨n, n + size (ofBlock prelude inner closed).toText⟩] else [] := by
  rw [size_ofBlock]
  obtain ⟨_, hp, ha, -⟩ | ⟨w, e, hp, ha, -⟩ | ⟨w, hp, ha, -⟩ := prelude_cases prelude
  · simp [ofBlock, outline, hp, ha, Outline.emptiedRanges, isEmptied_eq]
  · simp [ofBlock, outline, hp, ha, Outline.emptiedRanges]
  · simp [ofBlock, outline, hp, ha, Outline.emptiedRanges]

theorem emptiedRanges_bounds (sheet : Sheet) (nested : Bool) (n : Nat) :
    ∀ r ∈ (sheet.outline nested n).emptiedRanges, n ≤ r.start ∧ r.stop ≤ n + size sheet.toText := by
  induction sheet generalizing nested n with
  | empty => simp [outline, Outline.emptiedRanges]
  | piece p rest ih =>
    intro r hr
    rw [emptiedRanges_piece] at hr
    have := ih nested _ r hr
    simp only [toText, size_append]
    omega
  | block prelude inner closed rest _ ih =>
    intro r hr
    rw [emptiedRanges_block, List.mem_append] at hr
    rw [toText_block, size_append]
    rcases hr with hr | hr
    · rw [emptiedRanges_ofBlock, List.mem_ite_nil_right, List.mem_singleton] at hr
      obtain ⟨-, rfl⟩ := hr
      dsimp only
      omega
    · have := ih nested _ r hr
      omega

theorem withoutExports_of_export (h : (exportSelector? prelude).isSome) :
    (ofBlock prelude inner closed).withoutExports = empty := by
  obtain ⟨e, he⟩ := Option.isSome_iff_exists.mp h
  simp [ofBlock, withoutExports, he]

theorem passthrough_block : (block prelude inner closed rest).passthrough =
    (if (exportSelector? prelude).isSome || isAtRule prelude && inner.hasExports &&
        inner.isExportsOnly then []
      else [(ofBlock prelude inner closed).withoutExports.toText]) ++ rest.passthrough := by
  simp only [passthrough, ofBlock, withoutExports]
  cases exportSelector? prelude with
  | some e => simp
  | none =>
    simp only [Option.isSome_none, Bool.false_or]
    split <;> simp

/-- Blanks aside, the text that no export rule and no emptied at-rule covers passes through. -/
theorem filter_keepAt {sheet : Sheet} (nested : Bool) (n : Nat) (hs : sheet.Sound)
    (h : IsOutside p ((sheet.outline nested n).exportRanges ++
      (sheet.outline nested n).emptiedRanges) n (n + size sheet.toText)) :
    (keepAt p n sheet.toText).filter (!isSpace ·) =
      sheet.passthrough.flatten.filter (!isSpace ·) := by
  induction sheet generalizing n with
  | empty => rfl
  | piece q rest ih =>
    rw [exportRanges_piece, emptiedRanges_piece, toText, size_append, ← Nat.add_assoc] at h
    have hq : IsOutside p [] n (n + size q.toText) := by
      refine h.before (by omega) fun r hr => ?_
      rcases List.mem_append.mp hr with hr | hr
      · exact (exportRanges_bounds rest _ _ r hr).1
      · exact (emptiedRanges_bounds rest _ _ r hr).1
    have hrest := ih _ hs.2 (h.after (by omega))
    rw [toText, keepAt_append, hq.keep, List.filter_append, hrest]
    cases q with
    | blank t =>
      have hb : t.filter (!isSpace ·) = [] := by
        simpa using show ∀ c ∈ t, isSpace c from hs.1
      simp [passthrough, Piece.toText, hb]
    | _ => simp [passthrough]
  | block prelude inner closed rest _ ih =>
    rw [exportRanges_block, emptiedRanges_block, toText_block, size_append, ← Nat.add_assoc] at h
    have swap (rs qs ts us : List Range) : (rs ++ qs ++ (ts ++ us)).Perm (rs ++ ts ++ (qs ++ us)) :=
      List.perm_iff_count.mpr fun r => by simp only [List.count_append]; omega
    replace h := h.perm (swap _ _ _ _)
    have hrest := ih _ hs.2.1 <| h.right (by omega) fun r hr =>
      (List.mem_append.mp hr).elim (fun hr => (exportRanges_bounds _ _ _ r hr).2)
        fun hr => (emptiedRanges_bounds _ _ _ r hr).2
    have hnode := h.left (by omega) fun r hr =>
      (List.mem_append.mp hr).elim (fun hr => (exportRanges_bounds _ _ _ r hr).1)
        fun hr => (emptiedRanges_bounds _ _ _ r hr).1
    rw [toText_block, keepAt_append, List.filter_append, hrest, passthrough_block,
      List.flatten_append, List.filter_append]
    congr 1
    by_cases he : (isAtRule prelude && inner.hasExports && inner.isExportsOnly) = true
    · rw [emptiedRanges_ofBlock, if_pos he] at hnode
      rw [hnode.drop (by simp), he, Bool.or_true, if_pos rfl]
      rfl
    · rw [emptiedRanges_ofBlock, if_neg he, List.append_nil] at hnode
      rw [keepAt_withoutExports hnode, Bool.eq_false_iff.mpr he, Bool.or_false]
      split
      · rw [withoutExports_of_export ‹_›]
        rfl
      · rw [List.flatten_singleton]

theorem remainingRanges_piece (q : Piece) : ((piece q rest).outline false n).remainingRanges =
    (match q with | .blank _ => [] | _ => [⟨n, n + size q.toText⟩]) ++
      (rest.outline false (n + size q.toText)).remainingRanges := by
  cases q with
  | statement t semicolon =>
    simp only [outline]
    cases Statement.ofText t <;> rfl
  | _ => rfl

theorem remainingRanges_block :
    ((block prelude inner closed rest).outline false n).remainingRanges =
      (if (exportSelector? prelude).isSome || isAtRule prelude && inner.hasExports &&
          inner.isExportsOnly then []
        else [⟨n, n + size (ofBlock prelude inner closed).toText⟩]) ++
        (rest.outline false (n + size (ofBlock prelude inner closed).toText)).remainingRanges := by
  rw [size_ofBlock]
  obtain ⟨_, hp, ha, he⟩ | ⟨w, e, hp, ha, he, hw⟩ | ⟨w, hp, ha, he, hw⟩ := prelude_cases prelude
  · simp only [outline, hp, ha, he, Outline.remainingRanges, isEmptied_eq, Option.isSome_none,
      Bool.false_or, Bool.true_and]
    split <;> rfl
  · simp [outline, hp, he, hw, Outline.remainingRanges]
  · simp [outline, hp, ha, he, hw, Outline.remainingRanges]

/-- The text of each node that remains, less the export rules in it, passes through. -/
theorem map_remainingRanges {s : List Char} {a b : Nat} {sheet : Sheet}
    (hs : StandsAt s sheet.toText a b) (h : IsOutside p (sheet.outline false a).exportRanges a b) :
    ((sheet.outline false a).remainingRanges.map fun r =>
      keepAt (fun k => r.covers k && p k) 0 s) = sheet.passthrough := by
  induction sheet generalizing a with
  | empty => rfl
  | piece q rest ih =>
    have hb := hs.right.eq_add
    rw [exportRanges_piece] at h
    have hq : IsOutside p [] a (a + size q.toText) :=
      h.before (by omega) fun r hr => (exportRanges_bounds rest _ _ r hr).1
    have hrest := ih hs.right (h.after (by omega))
    have hnode : keepAt (fun k => (Range.mk a (a + size q.toText)).covers k && p k) 0 s = q.toText :=
      (keepAt_covers p hs.left).trans hq.keep
    rw [remainingRanges_piece, List.map_append, hrest]
    cases q with
    | blank t => rfl
    | _ => exact congrArg (· :: rest.passthrough) hnode
  | block prelude inner closed rest _ ih =>
    rw [toText_block] at hs
    have hb := hs.right.eq_add
    rw [exportRanges_block] at h
    have hrest := ih hs.right <|
      h.right (by omega) fun r hr => (exportRanges_bounds _ _ _ r hr).2
    have hnode := h.left (by omega) fun r hr => (exportRanges_bounds rest _ _ r hr).1
    rw [remainingRanges_block, List.map_append, hrest, passthrough_block]
    congr 1
    split
    · rfl
    · rw [List.map_singleton, keepAt_covers p hs.left, keepAt_withoutExports hnode]

end Stylesheet.Sheet

theorem Stylesheet.Outline.remainingRanges_sublist (o : Outline) :
    o.remainingRanges.Sublist o.ranges := by
  induction o with
  | empty => exact .slnil
  | rule selector ds inner range rest _ ih =>
    unfold remainingRanges
    split
    · exact ih.cons _
    · exact ih.cons_cons _
  | atBlock head ds inner range rest _ ih =>
    unfold remainingRanges
    split
    · exact ih.cons _
    · exact ih.cons_cons _
  | atStatement head range rest ih => exact ih.cons_cons _
  | comment range rest ih => exact ih.cons_cons _
  | other range rest ih => exact ih.cons_cons _

theorem filter_join (ws : List (List Char)) :
    (join ['\n'] ws).filter (!isSpace ·) = ws.flatten.filter (!isSpace ·) := by
  induction ws with
  | nil => rfl
  | cons w ws ih =>
    cases ws with
    | nil => simp [join]
    | cons v ws =>
      have hn : ['\n'].filter (!isSpace ·) = [] := rfl
      rw [join, List.filter_append, List.filter_append, hn, ih, List.append_nil,
        List.flatten_cons (l := w), List.filter_append]

/-- Without its export rules and the at-rules that they empty, and blanks aside, a text is what
passes through. That is the text of the nodes that remain, in order, each on lines of its own and
less the export rules in it. Without export rules nothing is shared. -/
theorem passthrough_ofTextWith (f : Option (String → String)) (s : List Char) :
    (keepAt (outside ((outline s).exportRanges ++ (outline s).emptiedRanges)) 0 s).filter
        (!isSpace ·) =
      (Extraction.ofTextWith f s).extract.passthrough.toList.filter (!isSpace ·) ∧
    (Extraction.ofTextWith f s).extract.passthrough =
      String.ofList (join ['\n'] ((outline s).remainingRanges.map fun r =>
        keepAt (fun k => r.covers k && outside (outline s).exportRanges k) 0 s)) ∧
    ((outline s).remainingRanges.Pairwise fun r q => r.stop ≤ q.start) ∧
    ((outline s).exportRanges = [] → (Extraction.ofTextWith f s).extract.tree = .empty) := by
  have text : (Sheet.ofText s).toText = s := Sheet.toText_ofText s
  have order := (tiles_top s).pairwise.sublist (outline s).remainingRanges_sublist
  refine ⟨?_, ?_, order, fun ho => ?_⟩
  · have left := Sheet.filter_keepAt false 0 (Sheet.sound_ofText s) fun _ _ _ => rfl
    rw [text] at left
    change _ = List.filter _ (String.ofList (join ['\n'] _)).toList
    rw [String.toList_ofList, filter_join]
    exact left
  · have stands : StandsAt s (Sheet.ofText s).toText 0 (size s) := text.symm ▸ standsAt_self s
    exact congrArg (fun ws => String.ofList (join ['\n'] ws))
      (Sheet.map_remainingRanges stands fun _ _ _ => rfl).symm
  · have rules : (Sheet.ofText s).exportRules 0 = [] := by
      have offsets := Sheet.offset_exportRules (Sheet.ofText s) false 0
      rw [show ((Sheet.ofText s).outline false 0).exportRanges = [] from ho] at offsets
      exact List.map_eq_nil_iff.mp offsets
    change Extraction.writeAll f ((Sheet.ofText s).exportRules 0) .empty = .empty
    rw [rules]
    rfl

example : (Extraction.ofTextWith none
    "@media print \x7b :export \x7b a: b \x7d p \x7b\x7d \x7d".toList).extract.passthrough =
      "@media print \x7b  p \x7b\x7d \x7d" := by decide +kernel

end StyleExports
