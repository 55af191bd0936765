import StyleExports.EsModule.Scan
import StyleExports.Text.Blank

namespace StyleExports.EsModule

open Text

/-- A comment or a statement without the blanks after it, and the offset where it begins. -/
@[ext] structure Chunk where
  start : Nat
  text : List Char
  isComment : Bool
  deriving DecidableEq, Repr

namespace Chunk

def stop (k : Chunk) : Nat := k.start + size k.text

/-- The rest of a comment between delimiters and what follows it, if it ends; `star` after an
asterisk. -/
def commentRest? : Bool → List Char → Option (List Char × List Char)
  | _, [] => none
  | star, c :: s =>
    if star && c == '/' then some ([c], s)
    else (commentRest? (c == '*') s).map fun (a, b) => (c :: a, b)

/-- The comment at the start of a text and what follows it: no comment begins there, or one begins
that does not end. -/
def comment? : List Char → Option (Option (List Char × List Char))
  | '/' :: '/' :: s => some (some ('/' :: '/' :: s.takeWhile (· != '\n'), s.dropWhile (· != '\n')))
  | '/' :: '*' :: s => some ((commentRest? false s).map fun (a, b) => ('/' :: '*' :: a, b))
  | _ => none

theorem commentRest?_append {star : Bool} {s a b : List Char}
    (h : commentRest? star s = some (a, b)) : a ++ b = s := by
  induction s generalizing star a b with
  | nil => simp [commentRest?] at h
  | cons c s ih =>
    unfold commentRest? at h
    split at h
    · simp only [Option.some.injEq, Prod.mk.injEq] at h
      rw [← h.1, ← h.2, List.singleton_append]
    · simp only [Option.map_eq_some_iff, Prod.mk.injEq, Prod.exists] at h
      obtain ⟨a', b', h, rfl, rfl⟩ := h
      rw [List.cons_append, ih h]

theorem comment?_append {s a b : List Char} (h : comment? s = some (some (a, b))) : a ++ b = s := by
  unfold comment? at h
  split at h
  · simp only [Option.some.injEq, Prod.mk.injEq] at h
    rw [← h.1, ← h.2]
    simp
  · simp only [Option.some.injEq, Option.map_eq_some_iff, Prod.mk.injEq, Prod.exists] at h
    obtain ⟨a', b', h, rfl, rfl⟩ := h
    simp [commentRest?_append h]
  · simp at h

theorem length_of_comment? {s a b : List Char} (h : comment? s = some (some (a, b))) :
    b.length < s.length := by
  have hl := congrArg List.length (comment?_append h)
  have ha : 0 < a.length := by
    unfold comment? at h
    split at h
    · simp only [Option.some.injEq, Prod.mk.injEq] at h
      simp [← h.1]
    · simp only [Option.some.injEq, Option.map_eq_some_iff, Prod.mk.injEq, Prod.exists] at h
      obtain ⟨a', b', h, rfl, rfl⟩ := h
      simp
    · simp at h
  rw [List.length_append] at hl
  omega

theorem length_of_statement {c : Char} {s a b : List Char} (hc : c ≠ '\n')
    (h : Scan.start.statement (c :: s) = .ok (a, b)) : b.length < (c :: s).length := by
  have hl := congrArg List.length (Scan.statement_append h)
  have ha : 0 < a.length := by
    simp only [Scan.statement, bind, Except.bind, pure, Except.pure] at h
    cases hs : Scan.start.step c s with
    | error e => simp [hs] at h
    | ok r =>
      cases r with
      | more st =>
        cases ht : st.statement s with
        | error e => simp [hs, ht] at h
        | ok ab =>
          simp only [hs, ht, Except.ok.injEq, Prod.mk.injEq] at h
          simp [← h.1]
      | endsBefore => exact absurd hs (Scan.start_step_ne_endsBefore hc)
      | endsWith =>
        simp only [hs, Except.ok.injEq, Prod.mk.injEq] at h
        simp [← h.1]
  rw [List.length_append] at hl
  omega

def trimmed (start : Nat) (text : List Char) (isComment : Bool) : Chunk :=
  ⟨start, dropEndWhile isSpace text, isComment⟩

end Chunk

def chunks (n : Nat) (s : List Char) : Except Scan.Placed (List Chunk) :=
  match s with
  | [] => .ok []
  | c :: s =>
    if _hc : isSpace c ∨ c = ';' then chunks (n + 1) s
    else
      match _h : Chunk.comment? (c :: s) with
      | some none => .error (.unterminatedComment, n)
      | some (some (a, b)) => (chunks (n + size a) b).map (Chunk.trimmed n a true :: ·)
      | none =>
        match _h : Scan.start.statement (c :: s) with
        | .error (f, k) => .error (f, n + k)
        | .ok (a, b) => (chunks (n + size a) b).map (Chunk.trimmed n a false :: ·)
termination_by s.length
decreasing_by
  · simp
  · exact Chunk.length_of_comment? _h
  · refine Chunk.length_of_statement ?_ _h
    rintro rfl
    exact _hc (Or.inl rfl)

end StyleExports.EsModule
