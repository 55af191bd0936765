import StyleExports.Proofs.Stylesheet.Reading
import StyleExports.Stylesheet.Sheet

namespace StyleExports.Stylesheet

open Text

def Piece.token : Piece → Token
  | .blank t => .blank t
  | .comment t => .comment t
  | .statement t semicolon => .statement t semicolon
  | .stray => .closing

theorem Piece.toText_token (p : Piece) : p.token.toText = p.toText := by
  cases p <;> rfl

namespace Sheet

def closingTokens (closed : Bool) : List Token := if closed then [.closing] else []

def flatten : Sheet → List Token
  | .empty => []
  | .piece p rest => p.token :: rest.flatten
  | .block prelude inner closed rest =>
    .opening prelude :: (inner.flatten ++ (closingTokens closed ++ rest.flatten))

theorem append_empty (s : Sheet) : s ++ empty = s := by
  induction s with
  | empty => rfl
  | piece p rest ih => rw [piece_append, ih]
  | block prelude inner closed rest _ ih => rw [block_append, ih]

theorem flatten_append (s t : Sheet) : (s ++ t).flatten = s.flatten ++ t.flatten := by
  induction s with
  | empty => rfl
  | piece p rest ih => rw [piece_append, flatten, ih, flatten, List.cons_append]
  | block prelude inner closed rest _ ih =>
    rw [block_append, flatten, ih, flatten]
    simp

theorem flatMap_toText_flatten (s : Sheet) : s.flatten.flatMap Token.toText = s.toText := by
  induction s with
  | empty => rfl
  | piece p rest ih => rw [flatten, List.flatMap_cons, ih, Piece.toText_token, toText]
  | block prelude inner closed rest ihi ihr =>
    have closing : (closingTokens closed).flatMap Token.toText = closingText closed := by
      cases closed <;> rfl
    rw [flatten, List.flatMap_cons, List.flatMap_append, List.flatMap_append, ihi, ihr, closing,
      toText, Token.toText]
    simp

/-- The tokens of sheets between braces that close nothing in them. -/
def levelTokens (l : Sheet × List Sheet) : List Token :=
  l.1.flatten ++ l.2.flatMap (.closing :: ·.flatten)

theorem levelTokens_consToken (t : Token) (l : Sheet × List Sheet) :
    levelTokens (consToken t l) = t :: levelTokens l := by
  obtain ⟨first, more⟩ := l
  cases t with
  | opening prelude =>
    cases more <;> simp [consToken, levelTokens, flatten, closingTokens]
  | _ => simp [consToken, levelTokens, flatten, Piece.token]

theorem levelTokens_levels (ts : List Token) : levelTokens (levels ts) = ts := by
  induction ts with
  | nil => rfl
  | cons t ts ih =>
    have step := levelTokens_consToken t (levels ts)
    rw [ih] at step
    exact step

theorem flatten_withStrays (first : Sheet) (more : List Sheet) :
    (withStrays first more).flatten = levelTokens (first, more) := by
  induction more generalizing first with
  | nil => simp [withStrays, levelTokens]
  | cons next more ih =>
    rw [withStrays, flatten_append, flatten, ih]
    simp [levelTokens, Piece.token]

/-- No token is lost or added on the way into the sheet. -/
theorem flatten_ofTokens (ts : List Token) : (ofTokens ts).flatten = ts := by
  rw [ofTokens, flatten_withStrays, levelTokens_levels]

/-- Where a sheet stands: at the top of a text, in a block that the end of the text closes, or in one
that a brace closes. -/
inductive Place where
  | top
  | unclosed
  | closed
  deriving DecidableEq

/-- Strays stand at the top only, and what nothing closes is last of all. -/
def Nests : Place → Sheet → Prop
  | _, .empty => True
  | w, .piece p rest => (p = .stray → w = .top) ∧ Nests w rest
  | w, .block _ inner true rest => Nests .closed inner ∧ Nests w rest
  | w, .block _ inner false rest => w ≠ .closed ∧ Nests .unclosed inner ∧ rest = .empty

section

variable {s t : Sheet} {w : Place}

theorem Nests.top (h : Nests .unclosed s) : Nests .top s := by
  induction s with
  | empty => trivial
  | piece p rest ih => exact ⟨fun _ => rfl, ih h.2⟩
  | block prelude inner closed rest _ ih =>
    cases closed with
    | true => exact ⟨h.1, ih h.2⟩
    | false => exact ⟨by simp, h.2⟩

theorem Nests.append (hs : Nests .closed s) (ht : Nests w t) : Nests w (s ++ t) := by
  induction s with
  | empty => exact ht
  | piece p rest ih => exact ⟨fun hp => absurd (hs.1 hp) (by simp), ih hs.2⟩
  | block prelude inner closed rest _ ih =>
    cases closed with
    | true => exact ⟨hs.1, ih hs.2⟩
    | false => exact absurd rfl hs.1

/-- Sheets between braces that close nothing in them: only the last may be left open. -/
def LevelsNest (first : Sheet) : List Sheet → Prop
  | [] => Nests .unclosed first
  | next :: more => Nests .closed first ∧ next.LevelsNest more

theorem LevelsNest.congr {first : Sheet} {more : List Sheet} (h : first.LevelsNest more)
    (other : Sheet) (hc : ∀ w, w ≠ .top → Nests w first → Nests w other) : other.LevelsNest more := by
  cases more with
  | nil => exact hc .unclosed (by simp) h
  | cons next more => exact ⟨hc .closed (by simp) h.1, h.2⟩

theorem levelsNest_consToken (t : Token) {l : Sheet × List Sheet} (h : l.1.LevelsNest l.2) :
    (consToken t l).1.LevelsNest (consToken t l).2 := by
  obtain ⟨first, more⟩ := l
  cases t with
  | blank b => exact h.congr (.piece (.blank b) first) fun _ _ hf => ⟨by simp, hf⟩
  | comment b => exact h.congr (.piece (.comment b) first) fun _ _ hf => ⟨by simp, hf⟩
  | statement b semicolon =>
    exact h.congr (.piece (.statement b semicolon) first) fun _ _ hf => ⟨by simp, hf⟩
  | closing => exact ⟨trivial, h⟩
  | opening prelude =>
    cases more with
    | nil => exact ⟨by simp, h, rfl⟩
    | cons next more => exact h.2.congr (.block prelude first true next) fun _ _ hn => ⟨h.1, hn⟩

theorem levelsNest_levels (ts : List Token) : (levels ts).1.LevelsNest (levels ts).2 := by
  induction ts with
  | nil => trivial
  | cons t ts ih => exact levelsNest_consToken t ih

theorem nests_withStrays {first : Sheet} {more : List Sheet} (h : first.LevelsNest more) :
    Nests .top (withStrays first more) := by
  induction more generalizing first with
  | nil => exact Nests.top h
  | cons next more ih => exact h.1.append ⟨fun _ => rfl, ih h.2⟩

theorem nests_ofTokens (ts : List Token) : Nests .top (ofTokens ts) :=
  nests_withStrays (levelsNest_levels ts)

/-- In front of any tokens, those of a sheet that leaves nothing open read as the sheet. -/
theorem levels_flatten_append (h : Nests .closed s) (ts : List Token) :
    levels (s.flatten ++ ts) = (s ++ (levels ts).1, (levels ts).2) := by
  induction s generalizing ts with
  | empty => rfl
  | piece p rest ih =>
    have next := ih h.2 ts
    rw [flatten, List.cons_append]
    change consToken p.token (levels (rest.flatten ++ ts)) = _
    rw [next]
    cases p with
    | stray => exact absurd (h.1 rfl) (by simp)
    | _ => rfl
  | block prelude inner closed rest ihi ihr =>
    cases closed with
    | false => exact absurd rfl h.1
    | true =>
      have next := ihr h.2 ts
      have inside := ihi h.1 (.closing :: (rest.flatten ++ ts))
      have brace : levels (.closing :: (rest.flatten ++ ts)) =
          (empty, (rest ++ (levels ts).1) :: (levels ts).2) := by
        change consToken .closing (levels (rest.flatten ++ ts)) = _
        rw [next]
        rfl
      rw [brace, append_empty] at inside
      have tokens : (block prelude inner true rest).flatten ++ ts =
          .opening prelude :: (inner.flatten ++ .closing :: (rest.flatten ++ ts)) := by
        simp [flatten, closingTokens]
      rw [tokens]
      change consToken (.opening prelude) (levels _) = _
      rw [inside]
      rfl

theorem levels_flatten (h : Nests .unclosed s) : levels s.flatten = (s, []) := by
  induction s with
  | empty => rfl
  | piece p rest ih =>
    change consToken p.token (levels rest.flatten) = _
    rw [ih h.2]
    cases p with
    | stray => exact absurd (h.1 rfl) (by simp)
    | _ => rfl
  | block prelude inner closed rest ihi ihr =>
    cases closed with
    | false =>
      obtain ⟨-, hi, rfl⟩ := h
      have tokens : (block prelude inner false empty).flatten = .opening prelude :: inner.flatten := by
        simp [flatten, closingTokens]
      rw [tokens]
      change consToken (.opening prelude) (levels inner.flatten) = _
      rw [ihi hi]
      rfl
    | true =>
      have next := levels_flatten_append h.1 (.closing :: rest.flatten)
      have brace : levels (.closing :: rest.flatten) = (empty, [rest]) := by
        change consToken .closing (levels rest.flatten) = _
        rw [ihr h.2]
        rfl
      rw [brace, append_empty] at next
      change consToken (.opening prelude) (levels (inner.flatten ++ .closing :: rest.flatten)) = _
      rw [next]
      rfl

theorem withStrays_piece (p : Piece) (first : Sheet) (more : List Sheet) :
    withStrays (piece p first) more = piece p (withStrays first more) := by
  cases more <;> rfl

theorem withStrays_block (prelude : List Char) (inner : Sheet) (closed : Bool) (first : Sheet)
    (more : List Sheet) : withStrays (block prelude inner closed first) more =
      block prelude inner closed (withStrays first more) := by
  cases more <;> rfl

theorem ofTokens_flatten (h : Nests .top s) : ofTokens s.flatten = s := by
  induction s with
  | empty => rfl
  | piece p rest ih =>
    have next : withStrays (levels rest.flatten).1 (levels rest.flatten).2 = rest := ih h.2
    change withStrays (consToken p.token (levels rest.flatten)).1
      (consToken p.token (levels rest.flatten)).2 = _
    generalize levels rest.flatten = l at next ⊢
    obtain ⟨first, more⟩ := l
    cases p with
    | stray => exact congrArg (piece .stray) next
    | _ => exact (withStrays_piece _ first more).trans (congrArg _ next)
  | block prelude inner closed rest ihi ihr =>
    cases closed with
    | false =>
      have whole : levels (block prelude inner false rest).flatten =
          (block prelude inner false rest, []) := levels_flatten ⟨by simp, h.2⟩
      rw [ofTokens, whole, withStrays]
    | true =>
      have next : withStrays (levels rest.flatten).1 (levels rest.flatten).2 = rest := ihr h.2
      have inside := levels_flatten_append h.1 (.closing :: rest.flatten)
      have brace : levels (.closing :: rest.flatten) =
          (empty, (levels rest.flatten).1 :: (levels rest.flatten).2) := rfl
      rw [brace, append_empty] at inside
      change withStrays (consToken (.opening prelude)
        (levels (inner.flatten ++ .closing :: rest.flatten))).1 (consToken (.opening prelude)
        (levels (inner.flatten ++ .closing :: rest.flatten))).2 = _
      rw [inside, consToken, withStrays_block, next]

end

/-- A sheet without its blanks; blanks at the end of an item that a brace cuts short go too. -/
def tidy : Sheet → Sheet
  | .empty => .empty
  | .piece p rest =>
    match p with
    | .blank _ => rest.tidy
    | .statement t false => .piece (.statement (dropEndWhile isSpace t) false) rest.tidy
    | p => .piece p rest.tidy
  | .block prelude inner closed rest => .block prelude inner.tidy closed rest.tidy

/-- What holds of a sheet and of the same sheet tidied up: a blank may go, an item that a brace cuts
short may lose blanks at its end, and nothing else changes. -/
theorem tidy_induction {motive : Sheet → Sheet → Prop} (empty : motive empty empty)
    (blank : ∀ b rest, motive rest.tidy rest → motive rest.tidy (piece (.blank b) rest))
    (cut : ∀ t rest, motive rest.tidy rest →
      motive (piece (.statement (dropEndWhile isSpace t) false) rest.tidy)
        (piece (.statement t false) rest))
    (kept : ∀ p rest, motive rest.tidy rest → motive (piece p rest.tidy) (piece p rest))
    (block : ∀ prelude inner closed rest, motive inner.tidy inner → motive rest.tidy rest →
      motive (block prelude inner.tidy closed rest.tidy) (block prelude inner closed rest))
    (s : Sheet) : motive s.tidy s := by
  induction s with
  | empty => exact empty
  | piece p rest ih =>
    match p with
    | .blank b => exact blank b rest ih
    | .statement t false => exact cut t rest ih
    | .statement t true => exact kept (.statement t true) rest ih
    | .comment t => exact kept (.comment t) rest ih
    | .stray => exact kept .stray rest ih
  | block prelude inner closed rest ihi ihr => exact block prelude inner closed rest ihi ihr

theorem tidy_append (s t : Sheet) : (s ++ t).tidy = s.tidy ++ t.tidy := by
  induction s with
  | empty => rfl
  | piece p rest ih =>
    rw [piece_append]
    match p with
    | .blank b => exact ih
    | .statement b false => exact congrArg (Sheet.piece _) ih
    | .statement b true => exact congrArg (Sheet.piece _) ih
    | .comment b => exact congrArg (Sheet.piece _) ih
    | .stray => exact congrArg (Sheet.piece _) ih
  | block prelude inner closed rest _ ih => exact congrArg (Sheet.block _ _ _) ih

/-- Tidying and building the sheet may be done in either order. -/
theorem levels_tidy (ts : List Token) :
    levels (Stylesheet.tidy ts) = ((levels ts).1.tidy, (levels ts).2.map tidy) := by
  induction ts with
  | nil => rfl
  | cons t ts ih =>
    rw [tidy_cons]
    change _ = ((consToken t (levels ts)).1.tidy, (consToken t (levels ts)).2.map tidy)
    match t with
    | .blank b => exact ih
    | .comment b => exact congrArg (consToken (.comment b)) ih
    | .statement b true => exact congrArg (consToken (.statement b true)) ih
    | .statement b false => exact congrArg (consToken (.statement (dropEndWhile isSpace b) false)) ih
    | .closing => exact congrArg (consToken .closing) ih
    | .opening prelude =>
      change consToken (.opening prelude) (levels (Stylesheet.tidy ts)) = _
      rw [ih]
      obtain ⟨first, more⟩ := levels ts
      cases more <;> rfl

theorem tidy_withStrays (first : Sheet) (more : List Sheet) :
    (withStrays first more).tidy = withStrays first.tidy (more.map tidy) := by
  induction more generalizing first with
  | nil => rfl
  | cons next more ih =>
    rw [withStrays, tidy_append, List.map_cons, withStrays, ← ih]
    rfl

theorem tidy_ofTokens (ts : List Token) : (ofTokens ts).tidy = ofTokens (Stylesheet.tidy ts) := by
  rw [ofTokens, tidy_withStrays, ofTokens, levels_tidy]

/-- A sheet that its text reads as: its blocks are nested as reading nests them, and its tokens can be
read. -/
structure IsRead (s : Sheet) : Prop where
  nests : Nests .top s
  legible : Legible s.flatten

theorem isRead_ofText (s : List Char) : (ofText s).IsRead where
  nests := nests_ofTokens (tokens s)
  legible := by
    rw [ofText, flatten_ofTokens]
    exact legible_tokens s

/-- Blanks aside, a sheet comes back from its text. -/
theorem tidy_ofText_toText {s : Sheet} (h : s.IsRead) : (ofText s.toText).tidy = s.tidy := by
  rw [ofText, ← flatMap_toText_flatten, tidy_ofTokens, tidy_tokens_of_legible h.legible,
    ← tidy_ofTokens, ofTokens_flatten h.nests]

end Sheet

end StyleExports.Stylesheet
