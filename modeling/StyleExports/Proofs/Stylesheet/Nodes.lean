import StyleExports.Stylesheet.Outline

namespace StyleExports.Stylesheet

open Text

/-- The declaration that a piece is in a block, if it is one. -/
def Piece.declared (r : Range) : Piece → List PlacedDeclaration
  | .statement t _ =>
    match Statement.ofText t with
    | .declaration d => [⟨d, r⟩]
    | _ => []
  | _ => []

/-- The nodes from a piece on. -/
def Piece.outlined (nested : Bool) (r : Range) (after : Outline) : Piece → Outline
  | .blank _ => after
  | .comment _ => .comment r after
  | .stray => .other r after
  | .statement t _ =>
    match Statement.ofText t with
    | .atRule head => .atStatement head r after
    | .declaration _ => if nested then after else .other r after
    | .other => .other r after

def Prelude.outlined (ds : List PlacedDeclaration) (nodes : Outline) (r : Range)
    (after : Outline) : Prelude → Outline
  | .atRule head => .atBlock head ds nodes r after
  | .rule w => .rule (String.ofList w) ds nodes r after

/-- What a piece adds to an outline: nothing, or one node. -/
theorem Piece.outlined_cases {motive : (Range → Outline → Outline) → Prop} (p : Piece)
    (nested : Bool) (nothing : motive fun _ after => after) (comment : motive .comment)
    (other : motive .other) (atStatement : ∀ head, motive (.atStatement head)) :
    motive fun r after => p.outlined nested r after := by
  cases p with
  | blank t => exact nothing
  | comment t => exact comment
  | stray => exact other
  | statement t semicolon =>
    simp only [outlined]
    cases Statement.ofText t with
    | atRule head => exact atStatement head
    | other => exact other
    | declaration d =>
      cases nested with
      | true => exact nothing
      | false => exact other

namespace Sheet

variable {prelude : List Char} {inner rest : Sheet} {closed nested : Bool} {n : Nat}

theorem declarations_piece (p : Piece) : (piece p rest).declarations n =
    p.declared ⟨n, n + size p.toText⟩ ++ rest.declarations (n + size p.toText) := by
  cases p with
  | statement t semicolon =>
    simp only [declarations, Piece.declared]
    cases Statement.ofText t <;> rfl
  | _ => rfl

theorem outline_piece (p : Piece) : (piece p rest).outline nested n =
    p.outlined nested ⟨n, n + size p.toText⟩ (rest.outline nested (n + size p.toText)) := by
  cases p <;> rfl

theorem outline_block : (block prelude inner closed rest).outline nested n =
    (Prelude.ofText prelude).outlined (inner.declarations (n + size prelude + 1))
      (inner.outline true (n + size prelude + 1))
      ⟨n, n + size prelude + 1 + size inner.toText + size (closingText closed)⟩
      (rest.outline nested
        (n + size prelude + 1 + size inner.toText + size (closingText closed))) := by
  rw [outline]
  cases Prelude.ofText prelude <;> rfl

end Sheet

def PlacedDeclaration.unplaced (d : PlacedDeclaration) : PlacedDeclaration :=
  ⟨d.declaration, ⟨0, 0⟩⟩

theorem PlacedDeclaration.map_unplaced {ds es : List PlacedDeclaration}
    (h : ds.map (·.declaration) = es.map (·.declaration)) : ds.map unplaced = es.map unplaced := by
  have both := congrArg (List.map fun d => unplaced ⟨d, ⟨0, 0⟩⟩) h
  rwa [List.map_map, List.map_map] at both

theorem Piece.map_declared (p : Piece) (r q : Range) :
    (p.declared r).map (·.declaration) = (p.declared q).map (·.declaration) := by
  cases p with
  | statement t semicolon =>
    simp only [declared]
    cases Statement.ofText t <;> rfl
  | _ => rfl

def Range.moved (g : Nat → Nat) (r : Range) : Range := ⟨g r.start, g r.stop⟩

def PlacedDeclaration.moved (g : Nat → Nat) (d : PlacedDeclaration) : PlacedDeclaration :=
  ⟨d.declaration, d.range.moved g⟩

theorem Piece.declared_moved (p : Piece) (g : Nat → Nat) (r : Range) :
    (p.declared r).map (·.moved g) = p.declared (r.moved g) := by
  cases p with
  | statement t semicolon =>
    simp only [declared]
    cases Statement.ofText t <;> rfl
  | _ => rfl

/-- An outline apart from where its nodes stand. -/
def Outline.unplaced : Outline → Outline
  | .empty => .empty
  | .rule selector ds inner _ rest =>
    .rule selector (ds.map PlacedDeclaration.unplaced) inner.unplaced ⟨0, 0⟩ rest.unplaced
  | .atBlock head ds inner _ rest =>
    .atBlock head (ds.map PlacedDeclaration.unplaced) inner.unplaced ⟨0, 0⟩ rest.unplaced
  | .atStatement head _ rest => .atStatement head ⟨0, 0⟩ rest.unplaced
  | .comment _ rest => .comment ⟨0, 0⟩ rest.unplaced
  | .other _ rest => .other ⟨0, 0⟩ rest.unplaced

theorem Piece.unplaced_outlined (p : Piece) (nested : Bool) (r : Range) (after : Outline) :
    (p.outlined nested r after).unplaced = p.outlined nested ⟨0, 0⟩ after.unplaced :=
  p.outlined_cases nested
    (motive := fun node => ∀ r after, (node r after).unplaced = node ⟨0, 0⟩ after.unplaced)
    (fun _ _ => rfl) (fun _ _ => rfl) (fun _ _ => rfl) (fun _ _ _ => rfl) r after

theorem Prelude.unplaced_outlined (p : Prelude) (ds : List PlacedDeclaration) (nodes : Outline)
    (r : Range) (after : Outline) : (p.outlined ds nodes r after).unplaced =
      p.outlined (ds.map PlacedDeclaration.unplaced) nodes.unplaced ⟨0, 0⟩ after.unplaced := by
  cases p <;> rfl

end StyleExports.Stylesheet
