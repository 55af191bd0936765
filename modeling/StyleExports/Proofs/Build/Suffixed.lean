import StyleExports.Proofs.Build.ClassSuffixes
import StyleExports.Proofs.Build.Compiler
import StyleExports.Proofs.Text.FirstUse

namespace StyleExports

open Text Stylesheet

namespace Stylesheet

/-- The selectors of all rules with the offsets at which they start. -/
def Outline.placedSelectors : Outline → List (Nat × List Char)
  | .empty => []
  | .rule selector _ inner range rest =>
    (range.start, selector.toList) :: (inner.placedSelectors ++ rest.placedSelectors)
  | .atBlock _ _ inner _ rest => inner.placedSelectors ++ rest.placedSelectors
  | .atStatement _ _ rest => rest.placedSelectors
  | .comment _ rest => rest.placedSelectors
  | .other _ rest => rest.placedSelectors

def Outline.classUses (o : Outline) : List (Nat × List Char) :=
  o.placedSelectors.flatMap fun e => Compiler.uses e.1 e.2

/-- An outline when texts are put into its selectors, all offsets moved. -/
def Outline.inserted (f : Nat → List Char) (g : Nat → Nat) : Outline → Outline
  | .empty => .empty
  | .rule selector ds inner range rest =>
    .rule (String.ofList (insertAt f range.start selector.toList)) (ds.map (·.moved g))
      (inner.inserted f g) (range.moved g) (rest.inserted f g)
  | .atBlock head ds inner range rest =>
    .atBlock head (ds.map (·.moved g)) (inner.inserted f g) (range.moved g) (rest.inserted f g)
  | .atStatement head range rest => .atStatement head (range.moved g) (rest.inserted f g)
  | .comment range rest => .comment (range.moved g) (rest.inserted f g)
  | .other range rest => .other (range.moved g) (rest.inserted f g)

theorem Piece.outlined_inserted (p : Piece) (nested : Bool) (f : Nat → List Char) (g : Nat → Nat)
    (r : Range) (after : Outline) :
    (p.outlined nested r after).inserted f g = p.outlined nested (r.moved g) (after.inserted f g) :=
  p.outlined_cases nested
    (motive := fun node => ∀ r after, (node r after).inserted f g = node (r.moved g) (after.inserted f g))
    (fun _ _ => rfl) (fun _ _ => rfl) (fun _ _ => rfl) (fun _ _ _ => rfl) r after

end Stylesheet

namespace Compiler

def preludeUses (n : Nat) (prelude : List Char) : List (Nat × List Char) :=
  if isAtRule prelude then [] else uses n prelude

section

variable {nested : Bool} {n : Nat} {prelude : List Char} {inner rest : Sheet} {closed : Bool}

theorem classUses_piece (p : Piece) : ((Sheet.piece p rest).outline nested n).classUses =
    (rest.outline nested (n + size p.toText)).classUses := by
  rw [Sheet.outline_piece]
  exact p.outlined_cases nested
    (motive := fun node => ∀ r after, (node r after).classUses = after.classUses)
    (fun _ _ => rfl) (fun _ _ => rfl) (fun _ _ => rfl) (fun _ _ _ => rfl) _ _

theorem classUses_block : ((Sheet.block prelude inner closed rest).outline nested n).classUses =
    preludeUses n prelude ++ ((inner.outline true (n + size prelude + 1)).classUses ++
      (rest.outline nested
        (n + size prelude + 1 + size inner.toText + size (Sheet.closingText closed))).classUses) := by
  have both (o q : Outline) : (o.placedSelectors ++ q.placedSelectors).flatMap (fun e => uses e.1 e.2) =
      o.classUses ++ q.classUses := List.flatMap_append
  rw [Sheet.outline_block]
  cases ha : isAtRule prelude with
  | true =>
    obtain ⟨r, hp⟩ := ofText_of_isAtRule ha
    rw [hp, preludeUses, if_pos ha, ← both]
    rfl
  | false =>
    rw [ofText_of_not_isAtRule ha, preludeUses, if_neg (by simp [ha]), Prelude.outlined,
      Outline.classUses, Outline.placedSelectors, List.flatMap_cons, both, String.toList_ofList,
      uses_trimEnd]

theorem inOrder_preludeUses (n : Nat) (prelude : List Char) :
    InOrder (·.1) useEnd (preludeUses n prelude) n (n + size prelude) := by
  unfold preludeUses
  split
  · exact .nil
  · exact inOrder_uses n prelude

theorem inOrder_classUses (sheet : Sheet) (nested : Bool) (n : Nat) :
    InOrder (·.1) useEnd (sheet.outline nested n).classUses n (n + size sheet.toText) := by
  induction sheet generalizing nested n with
  | empty => exact .nil
  | piece p rest ih =>
    rw [classUses_piece, Sheet.toText, size_append, ← Nat.add_assoc]
    exact (ih _ _).mono (by omega) (Nat.le_refl _)
  | block prelude inner closed rest ihi ihr =>
    have front := (inOrder_preludeUses n prelude).mono (d := n + size prelude + 1) (Nat.le_refl n)
      (by omega)
    have inside := (ihi true (n + size prelude + 1)).mono (Nat.le_refl _)
      (d := n + size prelude + 1 + size inner.toText + size (Sheet.closingText closed)) (by omega)
    rw [classUses_block, Sheet.toText_block, size_append, ← Nat.add_assoc, Sheet.size_ofBlock]
    exact front.append (inside.append (ihr nested _) (by omega) (by omega)) (by omega) (by omega)

/-- The suffixes of a sheet whose text begins at an offset, each at the end of its name. -/
def suffixes (path : List Char) (nested : Bool) (n : Nat) (sheet : Sheet) : List (Nat × List Char) :=
  (sheet.outline nested n).classUses.map (suffixAt (suffix path))

theorem suffixes_bounds (path : List Char) (nested : Bool) (n : Nat) (sheet : Sheet) :
    ∀ e ∈ suffixes path nested n sheet, n < e.1 ∧ e.1 ≤ n + size sheet.toText := by
  intro e he
  obtain ⟨d, hd, rfl⟩ := List.mem_map.mp he
  have := (inOrder_classUses sheet nested n).inside d hd
  dsimp only [suffixAt]
  omega

end

/-- What is put into a block goes to the text in front of it, to its inside and behind it, and nothing
goes to its braces. -/
structure BlockInserts (f : Nat → List Char) (path : List Char) (nested : Bool) (a : Nat)
    (prelude : List Char) (inner : Sheet) (closed : Bool) (rest : Sheet) : Prop where
  front : Inserts f ((preludeUses a prelude).map (suffixAt (suffix path))) a (a + size prelude)
  opening : Inserts f [] (a + size prelude) (a + size prelude + 1)
  inside : Inserts f (suffixes path true (a + size prelude + 1) inner) (a + size prelude + 1)
    (a + size prelude + 1 + size inner.toText)
  closing : Inserts f [] (a + size prelude + 1 + size inner.toText)
    (a + size prelude + 1 + size inner.toText + size (Sheet.closingText closed))
  behind : Inserts f (suffixes path nested
      (a + size prelude + 1 + size inner.toText + size (Sheet.closingText closed)) rest)
    (a + size prelude + 1 + size inner.toText + size (Sheet.closingText closed))
    (a + size prelude + 1 + size inner.toText + size (Sheet.closingText closed) + size rest.toText)

section

variable {f : Nat → List Char} {path : List Char} {nested : Bool} {a : Nat}
variable {prelude : List Char} {inner rest : Sheet} {closed : Bool}

theorem blockInserts (h : Inserts f (suffixes path nested a (.block prelude inner closed rest)) a
    (a + size (Sheet.block prelude inner closed rest).toText)) :
    BlockInserts f path nested a prelude inner closed rest := by
  have front : ∀ e ∈ (preludeUses a prelude).map (suffixAt (suffix path)),
      e.1 ≤ a + size prelude := by
    intro e he
    obtain ⟨d, hd, rfl⟩ := List.mem_map.mp he
    exact ((inOrder_preludeUses a prelude).inside d hd).2.2
  have inside := suffixes_bounds path true (a + size prelude + 1) inner
  have behind := suffixes_bounds path nested
    (a + size prelude + 1 + size inner.toText + size (Sheet.closingText closed)) rest
  rw [suffixes, classUses_block, List.map_append, List.map_append, Sheet.toText_block, size_append,
    ← Nat.add_assoc, Sheet.size_ofBlock] at h
  have later : ∀ e ∈ suffixes path true (a + size prelude + 1) inner ++ suffixes path nested
      (a + size prelude + 1 + size inner.toText + size (Sheet.closingText closed)) rest,
      a + size prelude + 1 < e.1 := by
    intro e he
    rcases List.mem_append.mp he with he | he
    · exact (inside e he).1
    · have := behind e he
      omega
  have fromBrace := h.right (b := a + size prelude) (by omega) front
  have fromInside := fromBrace.after (b := a + size prelude + 1) (by omega)
  have fromClosing := fromInside.right (b := a + size prelude + 1 + size inner.toText) (by omega)
    fun e he => (inside e he).2
  exact {
    front := h.left (by omega) fun e he => by
      have := later e he
      omega
    opening := fromBrace.before (by omega) later
    inside := fromInside.left (by omega) fun e he => by
      have := behind e he
      omega
    closing := fromClosing.before (by omega) fun e he => (behind e he).1
    behind := fromClosing.after (by omega) }

theorem pieceInserts {p : Piece} (h : Inserts f (suffixes path nested a (.piece p rest)) a
    (a + size (Sheet.piece p rest).toText)) : Inserts f [] a (a + size p.toText) ∧
      Inserts f (suffixes path nested (a + size p.toText) rest) (a + size p.toText)
        (a + size p.toText + size rest.toText) := by
  have later := suffixes_bounds path nested (a + size p.toText) rest
  rw [suffixes, classUses_piece, Sheet.toText, size_append, ← Nat.add_assoc] at h
  exact ⟨h.before (by omega) fun e he => (later e he).1, h.after (by omega)⟩

/-- In front of a block the suffixes go to the names of a selector. -/
theorem insertAt_prelude
    (h : Inserts f ((preludeUses a prelude).map (suffixAt (suffix path))) a (a + size prelude)) :
    insertAt f a prelude = suffixedPrelude path prelude := by
  unfold preludeUses at h
  unfold suffixedPrelude
  split
  · rename_i ha
    rw [if_pos ha] at h
    exact h.insertAt_nil
  · rename_i ha
    rw [if_neg ha] at h
    rw [h.insertAt_eq, ← suffixed_eq_insertAt]

theorem insertAt_selector (ha : isAtRule prelude = false)
    (h : Inserts f ((preludeUses a prelude).map (suffixAt (suffix path))) a (a + size prelude)) :
    insertAt f a (trimEnd prelude) = suffixed (suffix path) (trimEnd prelude) := by
  have shorter : size (trimEnd prelude) ≤ size prelude := by
    obtain ⟨e, -, he⟩ := exists_dropEndWhile isBlank prelude
    have whole := congrArg size he
    rw [size_append] at whole
    exact whole ▸ Nat.le_add_right ..
  rw [preludeUses, if_neg (by simp [ha]), ← uses_trimEnd] at h
  have inside : Inserts f ((uses a (trimEnd prelude)).map (suffixAt (suffix path))) a
      (a + size (trimEnd prelude)) := fun k hk hs => h k hk (by omega)
  rw [inside.insertAt_eq, ← suffixed_eq_insertAt]

/-- The text of a sheet with its suffixes put in is that of the sheet with suffixes. -/
theorem insertAt_toText {sheet : Sheet}
    (h : Inserts f (suffixes path nested a sheet) a (a + size sheet.toText)) :
    insertAt f a sheet.toText = (mapRules (suffixed (suffix path)) sheet).toText := by
  induction sheet generalizing nested a with
  | empty => rfl
  | piece p rest ih =>
    obtain ⟨here, behind⟩ := pieceInserts h
    rw [mapRules, Sheet.toText, insertAt_append, here.insertAt_nil, ih behind]
    rfl
  | block prelude inner closed rest ihi ihr =>
    have parts := blockInserts h
    have opening : insertAt f (a + size prelude) ['{'] = ['{'] := parts.opening.insertAt_nil
    rw [Sheet.toText_block, insertAt_append, Sheet.size_ofBlock, ihr parts.behind,
      Sheet.toText_ofBlock, insertAt_append, insertAt_append, opening, insertAt_prelude parts.front,
      Sheet.size_opening, ← Nat.add_assoc, insertAt_append, ihi parts.inside,
      parts.closing.insertAt_nil, mapRules_block, Sheet.toText_block, Sheet.toText_ofBlock]

variable {s : List Char} {b : Nat}

theorem movedBy_piece {p : Piece} (hs : StandsAt s p.toText a b)
    (h : Inserts f [] a (a + size p.toText)) :
    movedBy f s (a + size p.toText) = movedBy f s a + size p.toText := by
  rw [← hs.eq_add, movedBy_stop hs, h.insertAt_nil]

theorem movedBy_block (hs : StandsAt s (Sheet.block prelude inner closed rest).toText a b)
    (h : BlockInserts f path nested a prelude inner closed rest) :
    movedBy f s (a + size prelude + 1) =
        movedBy f s a + size (suffixedPrelude path prelude) + 1 ∧
      movedBy f s (a + size prelude + 1 + size inner.toText + size (Sheet.closingText closed)) =
        movedBy f s (a + size prelude + 1) + size (mapRules (suffixed (suffix path)) inner).toText +
          size (Sheet.closingText closed) := by
  obtain ⟨ho, hi, hc, -⟩ := Sheet.standsAt_block hs
  have opening : insertAt f (a + size prelude) ['{'] = ['{'] := h.opening.insertAt_nil
  constructor
  · rw [movedBy_stop ho, insertAt_append, insertAt_prelude h.front, opening, Sheet.size_opening,
      Nat.add_assoc]
  · rw [movedBy_stop hc, h.closing.insertAt_nil, movedBy_stop hi, insertAt_toText h.inside]

theorem declarations_mapRules {sheet : Sheet} (hs : StandsAt s sheet.toText a b)
    (h : Inserts f (suffixes path nested a sheet) a (a + size sheet.toText)) :
    (mapRules (suffixed (suffix path)) sheet).declarations (movedBy f s a) =
      (sheet.declarations a).map (·.moved (movedBy f s)) := by
  induction sheet generalizing a b with
  | empty => rfl
  | piece p rest ih =>
    obtain ⟨here, behind⟩ := pieceInserts h
    have stop := movedBy_piece hs.left here
    rw [mapRules, Sheet.declarations_piece, Sheet.declarations_piece, List.map_append,
      Piece.declared_moved, Range.moved, ← stop, ih hs.right behind]
  | block prelude inner closed rest ihi ihr =>
    have parts := blockInserts h
    obtain ⟨first, stop⟩ := movedBy_block hs parts
    obtain ⟨-, -, -, hr⟩ := Sheet.standsAt_block hs
    rw [mapRules_block, Sheet.declarations, Sheet.declarations, ← first, ← stop, ihr hr parts.behind]

/-- The outline of a sheet with suffixes is that of the sheet, when these are put in. -/
theorem outline_mapRules {sheet : Sheet} (hs : StandsAt s sheet.toText a b)
    (h : Inserts f (suffixes path nested a sheet) a (a + size sheet.toText)) :
    (mapRules (suffixed (suffix path)) sheet).outline nested (movedBy f s a) =
      (sheet.outline nested a).inserted f (movedBy f s) := by
  induction sheet generalizing nested a b with
  | empty => rfl
  | piece p rest ih =>
    obtain ⟨here, behind⟩ := pieceInserts h
    have stop := movedBy_piece hs.left here
    rw [mapRules, Sheet.outline_piece, Sheet.outline_piece, Piece.outlined_inserted, Range.moved,
      ← stop, ih hs.right behind]
  | block prelude inner closed rest ihi ihr =>
    have parts := blockInserts h
    obtain ⟨first, stop⟩ := movedBy_block hs parts
    obtain ⟨ho, hi, -, hr⟩ := Sheet.standsAt_block hs
    rw [mapRules_block, Sheet.outline_block, Sheet.outline_block, ← first, ← stop,
      ihr hr parts.behind, ihi hi parts.inside, declarations_mapRules hi parts.inside]
    cases ha : isAtRule prelude with
    | true =>
      obtain ⟨r, hp⟩ := ofText_of_isAtRule ha
      rw [suffixedPrelude_of_isAtRule path ha, hp]
      rfl
    | false =>
      rw [ofText_suffixedPrelude path ha, ofText_of_not_isAtRule ha,
        ← insertAt_selector ha parts.front, Prelude.outlined, Prelude.outlined, Outline.inserted,
        String.toList_ofList]
      rfl

end

/-- The classes of a stylesheet in the order in which they are first used, with what they become. -/
def classTable (path css : List Char) : List (List Char × List Char) :=
  (classes css).map fun n => (n, n ++ suffix path n)

theorem classMap_eq (path css : List Char) : classMap path (classes css) =
    "export default \x7b ".toList ++ join [',', ' '] ((classTable path css).map fun e =>
      Quoted.encode e.1 ++ ':' :: ' ' :: Quoted.encode e.2) ++ " \x7d;".toList := by
  have rows : (classTable path css).map (fun e => Quoted.encode e.1 ++ ':' :: ' ' :: Quoted.encode e.2) =
      (classes css).map fun n =>
        Quoted.encode n ++ ':' :: ' ' :: Quoted.encode (n ++ suffix path n) := by
    rw [classTable, List.map_map]
    rfl
  rw [rows]
  unfold classMap
  dsimp only

theorem unclosed_mapRules (f : List Char → List Char) (sheet : Sheet) :
    (mapRules f sheet).unclosed = sheet.unclosed := by
  induction sheet with
  | empty => rfl
  | piece p rest ih => exact ih
  | block prelude inner closed rest ihi ihr =>
    rw [mapRules, Sheet.unclosed, ihi, ihr, Sheet.unclosed]

theorem map_classUses (sheet : Sheet) (nested : Bool) (n : Nat) :
    (sheet.outline nested n).classUses.map (·.2) = (selectors sheet).flatMap classNames := by
  induction sheet generalizing nested n with
  | empty => rfl
  | piece p rest ih =>
    rw [classUses_piece]
    exact ih nested _
  | block prelude inner closed rest ihi ihr =>
    rw [classUses_block, List.map_append, List.map_append, ihi, ihr, selectors, preludeUses]
    cases ha : isAtRule prelude with
    | true =>
      obtain ⟨r, hp⟩ := ofText_of_isAtRule ha
      rw [if_pos rfl, hp]
      exact List.flatMap_append.symm
    | false =>
      have names : (uses n prelude).map (·.2) = classNames (trimEnd prelude) := by
        rw [← uses_trimEnd]
        exact map_usesFrom (by simp) n (trimEnd prelude)
      rw [if_neg Bool.false_ne_true, ofText_of_not_isAtRule ha, names]
      simp

theorem classes_eq (css : List Char) :
    classes css = ((outline css).classUses.map (·.2)).eraseDups := by
  rw [outline, map_classUses, classes]

theorem map_classTable (path css : List Char) : (classTable path css).map (·.1) = classes css := by
  rw [classTable, List.map_map]
  exact List.map_id _

theorem mem_classTable {path css n m : List Char} : (n, m) ∈ classTable path css ↔
    n ∈ (outline css).classUses.map (·.2) ∧ m = n ++ suffix path n := by
  rw [classTable, List.mem_map, ← List.mem_eraseDups, ← classes_eq]
  constructor
  · rintro ⟨_, hn, he⟩
    cases he
    exact ⟨hn, rfl⟩
  · rintro ⟨hn, rfl⟩
    exact ⟨n, hn, rfl⟩

section

variable (path css : List Char)

/-- The texts that are put into a stylesheet, by their offsets. -/
def suffixTexts : Nat → List Char := textsAt ((outline css).classUses.map (suffixAt (suffix path)))

theorem inserts_suffixTexts :
    Inserts (suffixTexts path css) (suffixes path false 0 (Sheet.ofText css)) 0
      (0 + size (Sheet.ofText css).toText) :=
  fun _ _ _ => rfl

theorem withSuffixes_eq : withSuffixes path css = insertAt (suffixTexts path css) 0 css := by
  rw [withSuffixes, ← insertAt_toText (inserts_suffixTexts path css), Sheet.toText_ofText]

theorem outline_withSuffixes : outline (withSuffixes path css) =
    (outline css).inserted (suffixTexts path css) (movedBy (suffixTexts path css) css) := by
  have whole : StandsAt css (Sheet.ofText css).toText 0 (size css) := by
    rw [Sheet.toText_ofText]
    exact standsAt_self css
  have moved := outline_mapRules whole (inserts_suffixTexts path css)
  rw [movedBy_zero, ← ofText_withSuffixes] at moved
  exact moved

theorem unclosedOffsets_withSuffixes : unclosedOffsets (withSuffixes path css) =
    (unclosedOffsets css).map (movedBy (suffixTexts path css) css) := by
  have stop := movedBy_stop (f := suffixTexts path css) (standsAt_self css)
  rw [movedBy_zero, Nat.zero_add, ← withSuffixes_eq] at stop
  rw [unclosedOffsets, unclosedOffsets, List.map_replicate, ofText_withSuffixes, unclosed_mapRules,
    ← stop]

end

end Compiler

theorem Stylesheet.Outline.Fits.standsAt {s : List Char} {o : Outline} {k : Nat} (h : o.Fits s k) :
    ∀ e ∈ o.placedSelectors, StandsAt s e.2 e.1 (e.1 + size e.2) := by
  induction h with
  | empty => exact fun e he => absurd he List.not_mem_nil
  | rule hs _ _ _ _ ihi ihr =>
    intro e he
    rcases List.mem_cons.mp he with rfl | he
    · exact hs
    · exact (List.mem_append.mp he).elim (ihi e) (ihr e)
  | atBlock _ _ _ _ ihi ihr => exact fun e he => (List.mem_append.mp he).elim (ihi e) (ihr e)
  | atStatement _ ih => exact ih
  | comment _ ih => exact ih
  | other _ ih => exact ih

namespace Compiler

/-- A stylesheet whose classes are renamed for the file at a path, with the table of its classes. -/
structure Renames (path css renamed : List Char) (table : List (List Char × List Char)) : Prop where
  /-- Behind each class name in the selector of a rule goes its suffix, and nothing else is put in. -/
  inserted : renamed =
    insertAt (textsAt ((outline css).classUses.map (suffixAt (suffix path)))) 0 css
  inOrder : InOrder (·.1) useEnd (outline css).classUses 0 (size css)
  placed : ∀ e ∈ (outline css).placedSelectors, StandsAt css e.2 e.1 (e.1 + size e.2)
  /-- Class names stand behind the dots of selectors that are in no bracket. -/
  mem_uses : ∀ e, e ∈ (outline css).classUses ↔ ∃ k ∈ (outline css).placedSelectors, ∃ u v,
    k.2 = u ++ '.' :: (e.2 ++ v) ∧ e.1 = k.1 + size u + 1 ∧ ¬ InBracket u ∧ IsClassName e.2 ∧
    ∀ c ∈ v.head?, isClassChar c = false
  isSuffix : ∀ n, IsSuffix (suffix path n)
  injective : ∀ n m, n ++ suffix path n = m ++ suffix path m ↔ n = m
  /-- The table holds the classes that are used, each with its suffix. -/
  mem_table : ∀ n m, (n, m) ∈ table ↔
    n ∈ (outline css).classUses.map (·.2) ∧ m = n ++ suffix path n
  /-- It holds each of them once, in the order in which they are first used. -/
  firstUse : (table.map (·.1)).Pairwise fun n m =>
    ((outline css).classUses.map (·.2)).idxOf n < ((outline css).classUses.map (·.2)).idxOf m
  /-- The renamed stylesheet has the same nodes, but for the suffixes and the offsets. -/
  outline_eq : outline renamed = (outline css).inserted
    (textsAt ((outline css).classUses.map (suffixAt (suffix path))))
    (movedBy (textsAt ((outline css).classUses.map (suffixAt (suffix path)))) css)
  unclosed_eq : unclosedOffsets renamed = (unclosedOffsets css).map
    (movedBy (textsAt ((outline css).classUses.map (suffixAt (suffix path)))) css)

/-- Renaming the classes of a stylesheet does no more than put in the suffixes of their names. The map that
is exported has the rows of the table. -/
theorem renames_withSuffixes (path css : List Char) :
    Renames path css (withSuffixes path css) (classTable path css) ∧
      classMap path (classes css) = "export default \x7b ".toList ++
        join [',', ' '] ((classTable path css).map fun e =>
          Quoted.encode e.1 ++ ':' :: ' ' :: Quoted.encode e.2) ++ " \x7d;".toList := by
  have order := inOrder_classUses (Sheet.ofText css) false 0
  rw [Sheet.toText_ofText, Nat.zero_add] at order
  refine ⟨?_, classMap_eq path css⟩
  exact {
    inserted := withSuffixes_eq path css
    inOrder := order
    placed := (fits_top css).standsAt
    mem_uses := fun e => by
      simp only [Outline.classUses, List.mem_flatMap, Compiler.mem_uses]
    isSuffix := isSuffix_suffix path
    injective := fun _ _ => append_suffix_inj path
    mem_table := fun _ _ => mem_classTable
    firstUse := by
      rw [map_classTable, classes_eq]
      exact pairwise_eraseDups _
    outline_eq := outline_withSuffixes path css
    unclosed_eq := unclosedOffsets_withSuffixes path css }

example : (outline ".a[.b] > .a-1:not(.9c) \x7b & .é, .d \x7b\x7d \x7d".toList).classUses.map
    (fun e => (e.1, String.ofList e.2)) = [(1, "a"), (10, "a-1"), (33, "d")] := by
  decide +kernel

end Compiler

end StyleExports
