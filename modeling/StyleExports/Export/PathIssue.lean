import StyleExports.Text.Cut

namespace StyleExports.Export

/-- The characters that no export path may hold: they belong to the grammar of selectors. -/
def forbidden : List Char :=
  ['~', '>', '<', '[', ']', '(', ')', '.', '#', ':', '*', '/', '@']

/-- The characters that an export path may hold, though its names are then no identifiers. -/
def discouraged : List Char := ['-', '\\']

inductive PathIssue.Kind where
  | forbidden
  | discouraged
  deriving DecidableEq, Repr

/-- A character that should not stand in a path, with its offset in the path. -/
@[ext] structure PathIssue where
  kind : PathIssue.Kind
  offset : Nat
  character : Char
  deriving DecidableEq, Repr

namespace PathIssue

def kind? (c : Char) : Option Kind :=
  if c ∈ Export.forbidden then some .forbidden
  else if c ∈ Export.discouraged then some .discouraged
  else none

/-- The issues of a path that begins at an offset, in order. -/
def inPathFrom : Nat → List Char → List PathIssue
  | _, [] => []
  | n, c :: s =>
    match kind? c with
    | some k => ⟨k, n, c⟩ :: inPathFrom (n + c.utf8Size) s
    | none => inPathFrom (n + c.utf8Size) s

def inPath (path : List Char) : List PathIssue := inPathFrom 0 path

theorem inPathFrom_append (n : Nat) (s t : List Char) :
    inPathFrom n (s ++ t) = inPathFrom n s ++ inPathFrom (n + Text.size s) t := by
  induction s generalizing n with
  | nil => rfl
  | cons c s ih =>
    simp only [List.cons_append, inPathFrom, Text.size_cons]
    cases kind? c <;> simp [ih, Nat.add_assoc]

theorem forall_mem_inPathFrom (n : Nat) (s : List Char) :
    (∀ i ∈ inPathFrom n s, i.kind ≠ .forbidden) ↔ ∀ c ∈ s, c ∉ Export.forbidden := by
  induction s generalizing n with
  | nil => simp [inPathFrom]
  | cons c s ih =>
    by_cases hf : c ∈ Export.forbidden
    · simp [inPathFrom, kind?, hf]
    · by_cases hd : c ∈ Export.discouraged
      · simp [inPathFrom, kind?, hf, hd, ih]
      · simp [inPathFrom, kind?, hf, hd, ih]

end PathIssue

def describe (cs : List Char) : String :=
  "[" ++ String.ofList (Text.join [' '] (cs.map fun c => [c])) ++ "]"

end StyleExports.Export
