import StyleExports.Export.Rule
import StyleExports.Proofs.Stylesheet.Nodes
import StyleExports.Proofs.Text.Place

namespace StyleExports.Stylesheet

open Text

def Range.covers (r : Range) (n : Nat) : Bool := r.start ≤ n && n < r.stop

def outside (rs : List Range) (n : Nat) : Bool := !rs.any (·.covers n)

/-- A test that between two offsets passes what no range covers. -/
def IsOutside (p : Nat → Bool) (rs : List Range) (a b : Nat) : Prop :=
  ∀ k, a ≤ k → k < b → p k = outside rs k

section

variable {p : Nat → Bool} {rs qs : List Range} {a b c : Nat} {w : List Char}

theorem any_covers_of_le {k : Nat} (h : ∀ r ∈ rs, k < r.start ∨ r.stop ≤ k) :
    rs.any (·.covers k) = false := by
  rw [List.any_eq_false]
  intro r hr
  have := h r hr
  simp only [Range.covers, Bool.and_eq_true, decide_eq_true_eq]
  omega

theorem IsOutside.perm (h : IsOutside p rs a b) (hp : rs.Perm qs) : IsOutside p qs a b := by
  intro k ha hb
  rw [h k ha hb, outside, outside, hp.any_eq]

/-- Up to an offset, the ranges behind it do not matter. -/
theorem IsOutside.left (h : IsOutside p (rs ++ qs) a c) (hb : b ≤ c)
    (hq : ∀ r ∈ qs, b ≤ r.start) : IsOutside p rs a b := by
  intro k ha hk
  have later := any_covers_of_le fun r hr => Or.inl (Nat.lt_of_lt_of_le hk (hq r hr))
  rw [h k ha (by omega), outside, outside, List.any_append, later, Bool.or_false]

theorem IsOutside.right (h : IsOutside p (rs ++ qs) a c) (hb : a ≤ b)
    (hr : ∀ r ∈ rs, r.stop ≤ b) : IsOutside p qs b c := by
  intro k hk hc
  have earlier := any_covers_of_le fun r hs => Or.inr (Nat.le_trans (hr r hs) hk)
  rw [h k (by omega) hc, outside, outside, List.any_append, earlier, Bool.false_or]

theorem IsOutside.before (h : IsOutside p rs a c) (hb : b ≤ c) (hr : ∀ r ∈ rs, b ≤ r.start) :
    IsOutside p [] a b := by
  rw [← List.nil_append rs] at h
  exact h.left hb hr

theorem IsOutside.after (h : IsOutside p rs a c) (hb : a ≤ b) : IsOutside p rs b c :=
  fun k hk hc => h k (by omega) hc

theorem IsOutside.keep (h : IsOutside p [] a (a + size w)) : keepAt p a w = w := by
  rw [keepAt_congr (q := fun _ => true) fun k ha hb => h k ha hb, keepAt_true]

theorem IsOutside.drop (h : IsOutside p rs a (a + size w)) (hr : ⟨a, a + size w⟩ ∈ rs) :
    keepAt p a w = [] := by
  have out : ∀ k, a ≤ k → k < a + size w → p k = false := by
    intro k ha hb
    have hc : rs.any (·.covers k) = true :=
      List.any_eq_true.mpr ⟨_, hr, by simp [Range.covers, ha, hb]⟩
    rw [h k ha hb, outside, hc, Bool.not_true]
  rw [keepAt_congr (q := fun _ => false) out, keepAt_false]

/-- What a range holds of a text, less what a test leaves out. -/
theorem keepAt_covers {s : List Char} (q : Nat → Bool) (h : StandsAt s w a b) :
    keepAt (fun k => (Range.mk a b).covers k && q k) 0 s = keepAt q a w := by
  obtain ⟨u, v, rfl, rfl, rfl⟩ := h
  have before : keepAt (fun k => (Range.mk (size u) (size u + size w)).covers k && q k) 0 u = [] := by
    rw [keepAt_congr (q := fun _ => false), keepAt_false]
    intro k _ hk
    have : ¬ size u ≤ k := by omega
    simp [Range.covers, this]
  have after : keepAt (fun k => (Range.mk (size u) (size u + size w)).covers k && q k)
      (size u + size w) v = [] := by
    rw [keepAt_congr (q := fun _ => false), keepAt_false]
    intro k hk _
    have : ¬ k < size u + size w := by omega
    simp [Range.covers, this]
  rw [keepAt_append, keepAt_append, Nat.zero_add, before, after, List.append_nil, List.nil_append]
  refine keepAt_congr fun k ha hb => ?_
  simp [Range.covers, ha, hb]

end

namespace Outline

def isExport (selector : String) : Bool := (Export.Selector.ofText? selector.toList).isSome

/-- The ranges of the export rules, which stand side by side or in the blocks of at-rules only. -/
def exportRanges : Outline → List Range
  | .empty => []
  | .rule selector _ _ range rest =>
    if isExport selector then range :: rest.exportRanges else rest.exportRanges
  | .atBlock _ _ inner _ rest => inner.exportRanges ++ rest.exportRanges
  | .atStatement _ _ rest => rest.exportRanges
  | .comment _ rest => rest.exportRanges
  | .other _ rest => rest.exportRanges

/-- The ranges of the export rules whose selectors pass a test. -/
def rangesOf (q : Export.Selector → Bool) : Outline → List Range
  | .empty => []
  | .rule selector _ _ range rest =>
    if (Export.Selector.ofText? selector.toList).any q then range :: rest.rangesOf q
    else rest.rangesOf q
  | .atBlock _ _ inner _ rest => inner.rangesOf q ++ rest.rangesOf q
  | .atStatement _ _ rest => rest.rangesOf q
  | .comment _ rest => rest.rangesOf q
  | .other _ rest => rest.rangesOf q

theorem exportRanges_eq (o : Outline) : o.exportRanges = o.rangesOf fun _ => true := by
  induction o with
  | empty => rfl
  | rule selector _ _ range rest _ ih =>
    have test : (Export.Selector.ofText? selector.toList).any (fun _ => true) =
        isExport selector := by
      unfold isExport
      cases Export.Selector.ofText? selector.toList <;> rfl
    rw [exportRanges, rangesOf, test, ih]
  | atBlock _ _ inner _ rest ihi ihr => rw [exportRanges, rangesOf, ihi, ihr]
  | atStatement _ _ rest ih => exact ih
  | comment _ rest ih => exact ih
  | other _ rest ih => exact ih

/-- Whether all nodes side by side are export rules and comments. -/
def isExportsOnly : Outline → Bool
  | .empty => true
  | .rule selector _ _ _ rest => isExport selector && rest.isExportsOnly
  | .comment _ rest => rest.isExportsOnly
  | .atBlock .. => false
  | .atStatement .. => false
  | .other .. => false

/-- Whether a block loses all it has but comments with its export rules, of which it has some. -/
def isEmptied (declarations : List PlacedDeclaration) (inner : Outline) : Bool :=
  !inner.exportRanges.isEmpty && declarations.isEmpty && inner.isExportsOnly

def emptiedRanges : Outline → List Range
  | .empty => []
  | .rule _ _ _ _ rest => rest.emptiedRanges
  | .atBlock _ declarations inner range rest =>
    if isEmptied declarations inner then range :: rest.emptiedRanges else rest.emptiedRanges
  | .atStatement _ _ rest => rest.emptiedRanges
  | .comment _ rest => rest.emptiedRanges
  | .other _ rest => rest.emptiedRanges

/-- The ranges of the nodes side by side that are neither export rules nor emptied. -/
def remainingRanges : Outline → List Range
  | .empty => []
  | .rule selector _ _ range rest =>
    if isExport selector then rest.remainingRanges else range :: rest.remainingRanges
  | .atBlock _ declarations inner range rest =>
    if isEmptied declarations inner then rest.remainingRanges else range :: rest.remainingRanges
  | .atStatement _ range rest => range :: rest.remainingRanges
  | .comment range rest => range :: rest.remainingRanges
  | .other range rest => range :: rest.remainingRanges

end Outline

/-- What a text in front of a block makes of the block: an at-rule or a rule. -/
theorem atRule_or_rule (prelude : List Char) :
    (∃ r, Prelude.ofText prelude = .atRule r ∧ isAtRule prelude = true ∧
      exportSelector? prelude = none) ∨
    ∃ w, Prelude.ofText prelude = .rule w ∧ isAtRule prelude = false ∧
      Export.Selector.ofText? (String.ofList w).toList = exportSelector? prelude := by
  unfold exportSelector? Prelude.ofText isAtRule
  cases AtRule.ofText? prelude with
  | some r => exact .inl ⟨r, rfl, rfl, rfl⟩
  | none => exact .inr ⟨_, rfl, rfl, by rw [String.toList_ofList]⟩

/-- The export rules that the nodes of an outline say, in the order of the source. -/
def Outline.exportRules : Outline → List ExportRule
  | .empty => []
  | .rule selector ds inner range rest =>
    match Export.Selector.ofText? selector.toList with
    | some e => ⟨e, range.start, ds.map (·.declaration), inner.hasRules⟩ :: rest.exportRules
    | none => rest.exportRules
  | .atBlock _ _ inner _ rest => inner.exportRules ++ rest.exportRules
  | .atStatement _ _ rest => rest.exportRules
  | .comment _ rest => rest.exportRules
  | .other _ rest => rest.exportRules

theorem Sheet.hasRules_outline (sheet : Sheet) (nested : Bool) (n : Nat) :
    (sheet.outline nested n).hasRules = sheet.hasRules := by
  induction sheet generalizing nested n with
  | empty => rfl
  | piece p rest ih =>
    rw [outline_piece]
    cases p with
    | statement t semicolon =>
      rw [hasRules, ← ih nested (n + size (Piece.statement t semicolon).toText), Piece.outlined,
        Statement.ofText]
      cases AtRule.ofText? t with
      | some r => rfl
      | none =>
        cases Declaration.ofText? t with
        | none => rfl
        | some d => cases nested <;> rfl
    | _ => exact ih _ _
  | block prelude inner closed rest _ _ =>
    rw [outline_block]
    cases Prelude.ofText prelude <;> rfl

theorem Sheet.exportRules_outline (sheet : Sheet) (nested : Bool) (n : Nat) :
    (sheet.outline nested n).exportRules = sheet.exportRules n := by
  induction sheet generalizing nested n with
  | empty => rfl
  | piece p rest ih =>
    rw [outline_piece, exportRules, ← ih nested]
    exact p.outlined_cases nested
      (motive := fun node => ∀ r after, (node r after).exportRules = after.exportRules)
      (fun _ _ => rfl) (fun _ _ => rfl) (fun _ _ => rfl) (fun _ _ _ => rfl) _ _
  | block prelude inner closed rest ihi ihr =>
    rw [outline_block, exportRules]
    obtain ⟨r, hp, ha, he⟩ | ⟨w, hp, ha, he⟩ := atRule_or_rule prelude
    · simp [hp, ha, he, Prelude.outlined, Outline.exportRules, ihi, ihr]
    · rw [hp, Prelude.outlined, Outline.exportRules, he, ihr, hasRules_outline]
      cases exportSelector? prelude <;> simp [ha]

theorem exportRules_outline (s : List Char) :
    (outline s).exportRules = (Sheet.ofText s).exportRules 0 := Sheet.exportRules_outline _ false 0

theorem not_isAtRule_of_export {prelude : List Char} {e : Export.Selector}
    (h : exportSelector? prelude = some e) : isAtRule prelude = false := by
  obtain ⟨_, -, -, hn⟩ | ⟨_, -, ha, -⟩ := atRule_or_rule prelude
  · simp [h] at hn
  · exact ha

theorem prelude_cases (prelude : List Char) :
    (∃ r, Prelude.ofText prelude = .atRule r ∧ isAtRule prelude = true ∧
      exportSelector? prelude = none) ∨
    (∃ w e, Prelude.ofText prelude = .rule w ∧ isAtRule prelude = false ∧
      exportSelector? prelude = some e ∧ Outline.isExport (String.ofList w) = true) ∨
    ∃ w, Prelude.ofText prelude = .rule w ∧ isAtRule prelude = false ∧
      exportSelector? prelude = none ∧ Outline.isExport (String.ofList w) = false := by
  obtain atRule | ⟨w, hp, ha, he⟩ := atRule_or_rule prelude
  · exact .inl atRule
  · have test : Outline.isExport (String.ofList w) = (exportSelector? prelude).isSome := by
      rw [Outline.isExport, he]
    cases hs : exportSelector? prelude with
    | some e => exact .inr (.inl ⟨w, e, hp, ha, rfl, by rw [test, hs]; rfl⟩)
    | none => exact .inr (.inr ⟨w, hp, ha, rfl, by rw [test, hs]; rfl⟩)

namespace Sheet

/-- The sheet without the export rules whose selectors pass a test. -/
def without (q : Export.Selector → Bool) : Sheet → Sheet
  | .empty => .empty
  | .piece p rest => .piece p (rest.without q)
  | .block prelude inner closed rest =>
    if (exportSelector? prelude).any q then rest.without q
    else
      .block prelude (if isAtRule prelude then inner.without q else inner) closed (rest.without q)

theorem withoutExports_eq (s : Sheet) : s.withoutExports = s.without fun _ => true := by
  induction s with
  | empty => rfl
  | piece p rest ih => rw [withoutExports, without, ih]
  | block prelude inner closed rest ihi ihr =>
    rw [withoutExports, without, ihi, ihr]
    cases exportSelector? prelude <;> rfl

variable {p : Nat → Bool} {q : Export.Selector → Bool} {nested : Bool} {n : Nat}
variable {prelude : List Char} {inner rest : Sheet} {closed : Bool}

def ofBlock (prelude : List Char) (inner : Sheet) (closed : Bool) : Sheet :=
  .block prelude inner closed .empty

theorem toText_ofBlock : (ofBlock prelude inner closed).toText =
    (prelude ++ ['{']) ++ (inner.toText ++ closingText closed) := by simp [ofBlock, toText]

theorem toText_block : (block prelude inner closed rest).toText =
    (ofBlock prelude inner closed).toText ++ rest.toText := by simp [ofBlock, toText]

theorem size_opening : size (prelude ++ ['{']) = size prelude + 1 := size_append prelude ['{']

theorem size_ofBlock (n : Nat) (prelude : List Char) (inner : Sheet) (closed : Bool) :
    n + size (ofBlock prelude inner closed).toText =
    n + size prelude + 1 + size inner.toText + size (closingText closed) := by
  rw [toText_ofBlock, size_append, size_opening, size_append]
  omega

theorem rangesOf_piece (q : Export.Selector → Bool) (x : Piece) :
    ((piece x rest).outline nested n).rangesOf q =
      (rest.outline nested (n + size x.toText)).rangesOf q := by
  rw [outline_piece]
  exact x.outlined_cases nested
    (motive := fun node => ∀ r after, (node r after).rangesOf q = after.rangesOf q)
    (fun _ _ => rfl) (fun _ _ => rfl) (fun _ _ => rfl) (fun _ _ _ => rfl) _ _

theorem rangesOf_block (q : Export.Selector → Bool) :
    ((block prelude inner closed rest).outline nested n).rangesOf q =
      ((ofBlock prelude inner closed).outline nested n).rangesOf q ++
        (rest.outline nested (n + size (ofBlock prelude inner closed).toText)).rangesOf q := by
  rw [size_ofBlock]
  obtain ⟨r, hp, -⟩ | ⟨w, hp, -⟩ := atRule_or_rule prelude
  · simp [ofBlock, outline, hp, Outline.rangesOf]
  · simp only [ofBlock, outline, hp, Outline.rangesOf]
    split <;> rfl

/-- Of a block by itself, the ranges inside it, its own, or none. -/
theorem rangesOf_ofBlock (q : Export.Selector → Bool) :
    ((ofBlock prelude inner closed).outline nested n).rangesOf q =
      if (exportSelector? prelude).any q then [⟨n, n + size (ofBlock prelude inner closed).toText⟩]
      else if isAtRule prelude then (inner.outline true (n + size prelude + 1)).rangesOf q
      else [] := by
  rw [size_ofBlock]
  obtain ⟨r, hp, ha, he⟩ | ⟨w, hp, ha, he⟩ := atRule_or_rule prelude
  · simp [ofBlock, outline, hp, ha, he, Outline.rangesOf]
  · simp only [ofBlock, outline, hp, ha, he, Outline.rangesOf]
    simp

theorem rangesOf_bounds (q : Export.Selector → Bool) (sheet : Sheet) (nested : Bool) (n : Nat) :
    ∀ r ∈ (sheet.outline nested n).rangesOf q, n ≤ r.start ∧ r.stop ≤ n + size sheet.toText := by
  induction sheet generalizing nested n with
  | empty => simp [outline, Outline.rangesOf]
  | piece p rest ih =>
    intro r hr
    rw [rangesOf_piece] at hr
    have := ih nested _ r hr
    simp only [toText, size_append]
    omega
  | block prelude inner closed rest ihi ihr =>
    intro r hr
    have hsize := size_ofBlock n prelude inner closed
    rw [rangesOf_block, List.mem_append, rangesOf_ofBlock] at hr
    rw [toText_block, size_append]
    rcases hr with hr | hr
    · split at hr
      · obtain rfl := List.mem_singleton.mp hr
        dsimp only
        omega
      · split at hr
        · have := ihi true (n + size prelude + 1) r hr
          omega
        · simp at hr
    · have := ihr nested _ r hr
      omega

/-- The export rules that a test picks are found where their ranges start. -/
theorem starts_rangesOf (q : Export.Selector → Bool) (sheet : Sheet) (nested : Bool) (n : Nat) :
    ((sheet.outline nested n).rangesOf q).map (·.start) =
      ((sheet.exportRules n).filter (q ·.selector)).map (·.offset) := by
  induction sheet generalizing nested n with
  | empty => rfl
  | piece p rest ih =>
    rw [rangesOf_piece]
    exact ih nested _
  | block prelude inner closed rest ihi ihr =>
    rw [rangesOf_block, List.map_append, ihr, rangesOf_ofBlock, size_ofBlock, exportRules]
    cases he : exportSelector? prelude with
    | some e =>
      have ha := not_isAtRule_of_export he
      cases hq : q e <;> simp [hq, ha]
    | none =>
      cases ha : isAtRule prelude with
      | true =>
        simp only [Option.any_none, Bool.false_eq_true, if_false, if_true]
        rw [ihi, List.filter_append, List.map_append]
      | false => simp

theorem without_block (q : Export.Selector → Bool) :
    ((block prelude inner closed rest).without q).toText =
      ((ofBlock prelude inner closed).without q).toText ++ (rest.without q).toText := by
  simp only [ofBlock, without]
  split
  · rfl
  · exact toText_block

/-- Of a block whose export rules go, the text before it, its braces and the rest of it are left. -/
theorem keepAt_ofBlock
    (h : IsOutside p ((inner.outline true (n + size prelude + 1)).rangesOf q) n
      (n + size (ofBlock prelude inner closed).toText))
    (hi : IsOutside p ((inner.outline true (n + size prelude + 1)).rangesOf q)
        (n + size prelude + 1) (n + size prelude + 1 + size inner.toText) →
      keepAt p (n + size prelude + 1) inner.toText = (inner.without q).toText) :
    keepAt p n (ofBlock prelude inner closed).toText =
      (ofBlock prelude (inner.without q) closed).toText := by
  have bounds := rangesOf_bounds q inner true (n + size prelude + 1)
  rw [size_ofBlock] at h
  have opening : IsOutside p [] n (n + size (prelude ++ ['{'])) := by
    rw [size_opening]
    exact h.before (by omega) fun r hr => (bounds r hr).1
  rw [← List.append_nil (Outline.rangesOf _ _)] at h
  have inside : IsOutside p ((inner.outline true (n + size prelude + 1)).rangesOf q)
      (n + size prelude + 1) (n + size prelude + 1 + size inner.toText) :=
    (h.after (by omega)).left (by omega) (by simp)
  have closing : IsOutside p [] (n + size prelude + 1 + size inner.toText)
      (n + size prelude + 1 + size inner.toText + size (closingText closed)) :=
    h.right (by omega) fun r hr => (bounds r hr).2
  rw [toText_ofBlock, keepAt_append, opening.keep, size_opening, ← Nat.add_assoc, keepAt_append,
    hi inside, closing.keep, toText_ofBlock]

/-- The text of a sheet that none of the export rules covers is that of the sheet without them. -/
theorem keepAt_without {sheet : Sheet}
    (h : IsOutside p ((sheet.outline nested n).rangesOf q) n (n + size sheet.toText)) :
    keepAt p n sheet.toText = (sheet.without q).toText := by
  induction sheet generalizing nested n with
  | empty => rfl
  | piece x rest ih =>
    rw [rangesOf_piece] at h
    simp only [toText, size_append, ← Nat.add_assoc] at h
    have hx : IsOutside p [] n (n + size x.toText) :=
      h.before (by omega) fun r hr => (rangesOf_bounds q rest _ _ r hr).1
    have hrest := ih (h.after (by omega))
    simp only [toText, without, keepAt_append, hx.keep, hrest]
  | block prelude inner closed rest ihi ihr =>
    rw [rangesOf_block, toText_block, size_append, ← Nat.add_assoc] at h
    have hrest := ihr (h.right (by omega) fun r hr => (rangesOf_bounds q _ _ _ r hr).2)
    have hnode := h.left (by omega) fun r hr => (rangesOf_bounds q rest _ _ r hr).1
    rw [toText_block, keepAt_append, without_block, hrest]
    congr 1
    rw [rangesOf_ofBlock] at hnode
    by_cases he : (exportSelector? prelude).any q = true
    · rw [if_pos he] at hnode
      rw [hnode.drop (by simp), ofBlock, without, if_pos he]
      rfl
    rw [if_neg he] at hnode
    rw [ofBlock, without, if_neg he]
    by_cases ha : isAtRule prelude = true
    · rw [if_pos ha] at hnode ⊢
      exact keepAt_ofBlock hnode ihi
    · rw [if_neg ha] at hnode ⊢
      exact hnode.keep

theorem exportRanges_piece (x : Piece) : ((piece x rest).outline nested n).exportRanges =
    (rest.outline nested (n + size x.toText)).exportRanges := by
  rw [Outline.exportRanges_eq, Outline.exportRanges_eq, rangesOf_piece]

theorem exportRanges_block : ((block prelude inner closed rest).outline nested n).exportRanges =
    ((ofBlock prelude inner closed).outline nested n).exportRanges ++
      (rest.outline nested (n + size (ofBlock prelude inner closed).toText)).exportRanges := by
  rw [Outline.exportRanges_eq, Outline.exportRanges_eq, Outline.exportRanges_eq, rangesOf_block]

theorem exportRanges_bounds (sheet : Sheet) (nested : Bool) (n : Nat) :
    ∀ r ∈ (sheet.outline nested n).exportRanges, n ≤ r.start ∧ r.stop ≤ n + size sheet.toText := by
  rw [Outline.exportRanges_eq]
  exact rangesOf_bounds _ sheet nested n

theorem keepAt_withoutExports {sheet : Sheet}
    (h : IsOutside p (sheet.outline nested n).exportRanges n (n + size sheet.toText)) :
    keepAt p n sheet.toText = sheet.withoutExports.toText := by
  rw [Outline.exportRanges_eq] at h
  rw [withoutExports_eq, keepAt_without h]

end Sheet

end StyleExports.Stylesheet
