import StyleExports.Stylesheet.Outline
import StyleExports.Proofs.Stylesheet.Sound
import StyleExports.Proofs.Text.Place

namespace StyleExports.Stylesheet

open Text

/-- Ranges tile the text between two offsets: each holds some text, and between them, and before the
first and after the last, stand only blanks. -/
def Tiles (s : List Char) : Nat → List Range → Nat → Prop
  | a, [], b => ∃ w, StandsAt s w a b ∧ ∀ c ∈ w, isSpace c
  | a, r :: rs, b =>
    (∃ w, StandsAt s w a r.start ∧ ∀ c ∈ w, isSpace c) ∧
      (∃ w, StandsAt s w r.start r.stop ∧ w ≠ []) ∧ Tiles s r.stop rs b

section

variable {s : List Char} {a b c : Nat} {rs : List Range}

theorem Tiles.pad {w : List Char} (hw : StandsAt s w a b) (hs : ∀ c ∈ w, isSpace c)
    (h : Tiles s b rs c) : Tiles s a rs c := by
  have wider {x : List Char} {d : Nat} (hx : StandsAt s x b d) (hb : ∀ c ∈ x, isSpace c) :
      ∃ y, StandsAt s y a d ∧ ∀ c ∈ y, isSpace c := by
    refine ⟨w ++ x, hw.append hx, fun c hc => ?_⟩
    exact (List.mem_append.mp hc).elim (hs c) (hb c)
  cases rs with
  | nil =>
    obtain ⟨x, hx, hb⟩ := h
    exact wider hx hb
  | cons r rs =>
    obtain ⟨⟨x, hx, hb⟩, rest⟩ := h
    exact ⟨wider hx hb, rest⟩

theorem Tiles.cons {w : List Char} (hw : StandsAt s w a b) (hn : w ≠ []) (h : Tiles s b rs c) :
    Tiles s a (⟨a, b⟩ :: rs) c :=
  ⟨⟨[], StandsAt.left (x := w) hw, by simp⟩, ⟨w, hw, hn⟩, h⟩

theorem Tiles.le (h : Tiles s a rs b) : a ≤ b := by
  induction rs generalizing a with
  | nil =>
    obtain ⟨w, hw, -⟩ := h
    have := hw.eq_add
    omega
  | cons r rs ih =>
    obtain ⟨⟨w, hw, -⟩, ⟨x, hx, -⟩, rest⟩ := h
    have := hw.eq_add
    have := hx.eq_add
    have := ih rest
    omega

theorem Tiles.bounds (h : Tiles s a rs b) :
    ∀ r ∈ rs, a ≤ r.start ∧ r.start < r.stop ∧ r.stop ≤ b := by
  induction rs generalizing a with
  | nil => simp
  | cons r rs ih =>
    obtain ⟨⟨w, hw, -⟩, ⟨x, hx, hn⟩, rest⟩ := h
    have before := hw.eq_add
    have inside := hx.eq_add
    have after := rest.le
    have := size_pos_of_ne_nil hn
    intro q hq
    rcases List.mem_cons.mp hq with rfl | hq
    · exact ⟨by omega, by omega, after⟩
    · obtain ⟨h1, h2, h3⟩ := ih rest q hq
      exact ⟨by omega, h2, h3⟩

theorem Tiles.pairwise (h : Tiles s a rs b) : rs.Pairwise fun r q => r.stop ≤ q.start := by
  induction rs generalizing a with
  | nil => exact .nil
  | cons r rs ih =>
    obtain ⟨-, -, rest⟩ := h
    exact .cons (fun q hq => (rest.bounds q hq).1) (ih rest)

theorem Tiles.boundaries (h : Tiles s a rs b) :
    ∀ r ∈ rs, IsBoundary s r.start ∧ IsBoundary s r.stop := by
  induction rs generalizing a with
  | nil => simp
  | cons r rs ih =>
    obtain ⟨-, ⟨x, hx, -⟩, rest⟩ := h
    exact List.forall_mem_cons.mpr ⟨hx.boundaries, ih rest⟩

end

/-- The ranges of the nodes side by side, without those inside them. -/
def Outline.ranges : Outline → List Range
  | .empty => []
  | .rule _ _ _ range rest => range :: rest.ranges
  | .atBlock _ _ _ range rest => range :: rest.ranges
  | .atStatement _ range rest => range :: rest.ranges
  | .comment range rest => range :: rest.ranges
  | .other range rest => range :: rest.ranges

/-- The ranges of the nodes and of the declarations, at every depth. -/
def Outline.allRanges : Outline → List Range
  | .empty => []
  | .rule _ ds inner range rest =>
    range :: (ds.map (·.range) ++ inner.allRanges ++ rest.allRanges)
  | .atBlock _ ds inner range rest =>
    range :: (ds.map (·.range) ++ inner.allRanges ++ rest.allRanges)
  | .atStatement _ range rest => range :: rest.allRanges
  | .comment range rest => range :: rest.allRanges
  | .other range rest => range :: rest.allRanges

/-- A range holds a text, an opening brace, and what tiles the block; a closing brace ends it, or
else the block is open and the range ends with the text. -/
structure Encloses (s : List Char) (range : Range) (prelude : List Char) (inside : List Range)
    (closed : Bool) : Prop where
  opening : StandsAt s (prelude ++ ['{']) range.start (range.start + size prelude + 1)
  block : ∃ rs last, rs.Perm inside ∧ Tiles s (range.start + size prelude + 1) rs last ∧
    if closed then StandsAt s ['}'] last range.stop else range.stop = last ∧ last = size s

/-- The nodes of an outline stand in a text as they say, and so many blocks are open at its end. -/
inductive Outline.Fits (s : List Char) : Outline → Nat → Prop where
  | empty : Fits s .empty 0
  | rule {selector : String} {ds : List PlacedDeclaration} {inner rest : Outline} {range : Range}
      {prelude : List Char} {closed : Bool} {j k : Nat}
      (hs : StandsAt s selector.toList range.start (range.start + size selector.toList))
      (hp : selector.toList = trimEnd prelude)
      (hb : Encloses s range prelude (ds.map (·.range) ++ inner.ranges) closed)
      (hi : Fits s inner j) (hr : Fits s rest k) :
      Fits s (.rule selector ds inner range rest) (j + (if closed then 0 else 1) + k)
  | atBlock {head : AtRule} {ds : List PlacedDeclaration} {inner rest : Outline} {range : Range}
      {prelude : List Char} {closed : Bool} {j k : Nat}
      (hp : AtRule.ofText? prelude = some head)
      (hb : Encloses s range prelude (ds.map (·.range) ++ inner.ranges) closed)
      (hi : Fits s inner j) (hr : Fits s rest k) :
      Fits s (.atBlock head ds inner range rest) (j + (if closed then 0 else 1) + k)
  | atStatement {head : AtRule} {range : Range} {rest : Outline} {k : Nat} (hr : Fits s rest k) :
      Fits s (.atStatement head range rest) k
  | comment {range : Range} {rest : Outline} {k : Nat} (hr : Fits s rest k) :
      Fits s (.comment range rest) k
  | other {range : Range} {rest : Outline} {k : Nat} (hr : Fits s rest k) :
      Fits s (.other range rest) k

section

variable {s : List Char} {o inner : Outline} {range : Range} {prelude : List Char} {closed : Bool}
  {ds : List PlacedDeclaration} {k : Nat}

theorem Encloses.boundaries
    (h : Encloses s range prelude (ds.map (·.range) ++ inner.ranges) closed) :
    (∀ r ∈ ds.map (·.range), IsBoundary s r.start ∧ IsBoundary s r.stop) ∧
      ∀ r ∈ inner.ranges, IsBoundary s r.start ∧ IsBoundary s r.stop := by
  obtain ⟨rs, last, perm, tiles, -⟩ := h.block
  have all := tiles.boundaries
  refine ⟨fun r hr => all r ?_, fun r hr => all r ?_⟩
  · exact perm.mem_iff.mpr (List.mem_append_left _ hr)
  · exact perm.mem_iff.mpr (List.mem_append_right _ hr)

/-- If the ranges side by side begin and end at boundaries, all the others do. -/
theorem Outline.Fits.boundaries (h : o.Fits s k)
    (ho : ∀ r ∈ o.ranges, IsBoundary s r.start ∧ IsBoundary s r.stop) :
    ∀ r ∈ o.allRanges, IsBoundary s r.start ∧ IsBoundary s r.stop := by
  induction h with
  | empty => exact ho
  | rule _ _ hb _ _ ihi ihr | atBlock _ hb _ _ ihi ihr =>
    obtain ⟨first, rest⟩ := List.forall_mem_cons.mp ho
    obtain ⟨declarations, nodes⟩ := hb.boundaries
    exact List.forall_mem_cons.mpr ⟨first, List.forall_mem_append.mpr
      ⟨List.forall_mem_append.mpr ⟨declarations, ihi nodes⟩, ihr rest⟩⟩
  | atStatement _ ih | comment _ ih | other _ ih =>
    obtain ⟨first, rest⟩ := List.forall_mem_cons.mp ho
    exact List.forall_mem_cons.mpr ⟨first, ih rest⟩

end

namespace Sheet

/-- The ranges of the pieces of a sheet, blanks left out, and of its blocks. -/
def ranges : Nat → Sheet → List Range
  | _, .empty => []
  | n, .piece p rest =>
    match p with
    | .blank t => ranges (n + size t) rest
    | p => ⟨n, n + size p.toText⟩ :: ranges (n + size p.toText) rest
  | n, .block prelude inner closed rest =>
    let stop := n + size prelude + 1 + size inner.toText + size (closingText closed)
    ⟨n, stop⟩ :: ranges stop rest

theorem ranges_outline (sheet : Sheet) (n : Nat) :
    (sheet.outline false n).ranges = sheet.ranges n := by
  induction sheet generalizing n with
  | empty => rfl
  | piece p rest ih =>
    cases p with
    | statement t semicolon =>
      simp only [outline, ranges]
      cases Statement.ofText t <;> simp [Outline.ranges, ih]
    | _ => simp [outline, ranges, Outline.ranges, Piece.toText, ih]
  | block prelude inner closed rest _ ih =>
    simp only [outline, ranges]
    cases Prelude.ofText prelude <;> simp [Outline.ranges, ih]

/-- Inside a block the declarations have ranges of their own. -/
theorem perm_ranges (sheet : Sheet) (n : Nat) :
    (sheet.ranges n).Perm
      ((sheet.declarations n).map (·.range) ++ (sheet.outline true n).ranges) := by
  induction sheet generalizing n with
  | empty => exact .refl _
  | piece p rest ih =>
    cases p with
    | statement t semicolon =>
      simp only [outline, declarations, ranges]
      cases Statement.ofText t with
      | declaration d => exact (ih _).cons _
      | atRule r => exact ((ih _).cons _).trans List.perm_middle.symm
      | other => exact ((ih _).cons _).trans List.perm_middle.symm
    | blank t => exact ih _
    | comment t => exact ((ih _).cons _).trans List.perm_middle.symm
    | stray => exact ((ih _).cons _).trans List.perm_middle.symm
  | block prelude inner closed rest _ ih =>
    simp only [outline, declarations, ranges]
    cases Prelude.ofText prelude with
    | atRule r => exact ((ih _).cons _).trans List.perm_middle.symm
    | rule s => exact ((ih _).cons _).trans List.perm_middle.symm

section

variable {s : List Char} {a b : Nat}

theorem standsAt_block {prelude : List Char} {inner rest : Sheet} {closed : Bool}
    (h : StandsAt s (block prelude inner closed rest).toText a b) :
    StandsAt s (prelude ++ ['{']) a (a + size prelude + 1) ∧
      StandsAt s inner.toText (a + size prelude + 1) (a + size prelude + 1 + size inner.toText) ∧
      StandsAt s (closingText closed) (a + size prelude + 1 + size inner.toText)
        (a + size prelude + 1 + size inner.toText + size (closingText closed)) ∧
      StandsAt s rest.toText
        (a + size prelude + 1 + size inner.toText + size (closingText closed)) b := by
  have parts : (block prelude inner closed rest).toText =
      (prelude ++ ['{']) ++ (inner.toText ++ (closingText closed ++ rest.toText)) := by
    simp [toText]
  have hsize : a + size (prelude ++ ['{']) = a + size prelude + 1 := by
    rw [size_append]
    rfl
  rw [parts] at h
  have inside := h.right
  rw [hsize] at inside
  exact ⟨hsize ▸ h.left, inside.left, inside.right.left, inside.right.right⟩

theorem tiles_ranges {sheet : Sheet} (hs : sheet.Sound) (h : StandsAt s sheet.toText a b) :
    Tiles s a (sheet.ranges a) b := by
  induction sheet generalizing a with
  | empty => exact ⟨[], h, by simp⟩
  | piece p rest ih =>
    have next := ih hs.2 h.right
    cases p with
    | blank t => exact next.pad h.left hs.1
    | _ => exact next.cons h.left hs.1
  | block prelude inner closed rest _ ih =>
    obtain ⟨ho, hi, hc, hr⟩ := standsAt_block h
    exact (ih hs.2.1 hr).cons (ho.append (hi.append hc)) (by simp)

theorem encloses {prelude : List Char} {inner rest : Sheet} {closed : Bool}
    (hs : (block prelude inner closed rest).Sound)
    (h : StandsAt s (block prelude inner closed rest).toText a b)
    (hend : (block prelude inner closed rest).unclosed ≠ 0 → b = size s) :
    let first := a + size prelude + 1
    Encloses s ⟨a, first + size inner.toText + size (closingText closed)⟩ prelude
      ((inner.declarations first).map (·.range) ++ (inner.outline true first).ranges) closed := by
  obtain ⟨ho, hi, hc, hr⟩ := standsAt_block h
  refine ⟨ho, _, _, perm_ranges inner _, tiles_ranges hs.1 hi, ?_⟩
  cases closed with
  | true => exact hc
  | false =>
    obtain rfl := hs.2.2.2 rfl
    have := hr.eq_add
    simp_all [closingText, unclosed, toText]

theorem fits_outline {sheet : Sheet} (nested : Bool) (hs : sheet.Sound)
    (h : StandsAt s sheet.toText a b) (hend : sheet.unclosed ≠ 0 → b = size s) :
    (sheet.outline nested a).Fits s sheet.unclosed := by
  induction sheet generalizing nested a b with
  | empty => exact .empty
  | piece p rest ih =>
    have next := ih nested hs.2 h.right hend
    cases p with
    | blank t => exact next
    | comment t => exact .comment next
    | stray => exact .other next
    | statement t semicolon =>
      simp only [outline]
      cases Statement.ofText t with
      | atRule r => exact .atStatement next
      | other => exact .other next
      | declaration d =>
        cases nested with
        | true => exact next
        | false => exact .other next
  | block prelude inner closed rest ihi ihr =>
    have hb := encloses hs h hend
    obtain ⟨ho, hi, hc, hr⟩ := standsAt_block h
    obtain ⟨si, sr, hclosed, hopen⟩ := hs
    have fr := ihr nested sr hr fun hu => hend (by simp only [unclosed]; omega)
    have fi : (inner.outline true (a + size prelude + 1)).Fits s inner.unclosed := by
      refine ihi true si hi fun hu => ?_
      cases closed with
      | true => exact absurd (hclosed rfl) hu
      | false =>
        obtain rfl := hopen rfl
        have := hr.eq_add
        simp_all [closingText, unclosed, toText]
    simp only [outline]
    cases hp : AtRule.ofText? prelude with
    | some r =>
      simp only [Prelude.ofText, hp]
      exact .atBlock hp hb fi fr
    | none =>
      simp only [Prelude.ofText, hp]
      have selector : StandsAt s (trimEnd prelude) a (a + size (trimEnd prelude)) := by
        obtain ⟨e, -, he⟩ := exists_dropEndWhile isBlank prelude
        have hw := ho.left
        rw [he] at hw
        exact hw.left
      exact .rule (by rwa [String.toList_ofList]) String.toList_ofList hb fi fr

end

end Sheet

theorem tiles_top (s : List Char) : Tiles s 0 (outline s).ranges (size s) := by
  rw [outline, Sheet.ranges_outline]
  refine Sheet.tiles_ranges (Sheet.sound_ofText s) ?_
  rw [Sheet.toText_ofText]
  exact standsAt_self s

theorem fits_top (s : List Char) : (outline s).Fits s (Sheet.ofText s).unclosed := by
  refine Sheet.fits_outline false (Sheet.sound_ofText s) ?_ fun _ => rfl
  rw [Sheet.toText_ofText]
  exact standsAt_self s

/-- The nodes of an outline tile the text: none is empty, they stand in order and apart, and only
blanks stand between them. So do the nodes and declarations of every block in it. For every block
that is open at the end of the text there is one offset, the end. No offset is inside a character. -/
theorem tiles_outline (s : List Char) :
    Tiles s 0 (outline s).ranges (size s) ∧
      (∀ r ∈ (outline s).ranges, r.start < r.stop ∧ r.stop ≤ size s) ∧
      ((outline s).ranges.Pairwise fun r q => r.stop ≤ q.start) ∧
      (∀ r ∈ (outline s).allRanges, IsBoundary s r.start ∧ IsBoundary s r.stop) ∧
      (∀ n ∈ unclosedOffsets s, IsBoundary s n) ∧
      ∃ k, (outline s).Fits s k ∧ unclosedOffsets s = List.replicate k (size s) := by
  have tiles := tiles_top s
  have fits := fits_top s
  have ends : ∀ n ∈ unclosedOffsets s, IsBoundary s n := by
    intro n hn
    rw [List.eq_of_mem_replicate hn]
    exact (standsAt_self s).boundaries.2
  exact ⟨tiles, fun r hr => (tiles.bounds r hr).2, tiles.pairwise, fits.boundaries tiles.boundaries,
    ends, _, fits, rfl⟩

end StyleExports.Stylesheet
