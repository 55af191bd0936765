import StyleExports.EsModule.Literal
import StyleExports.Text.Quoted

namespace StyleExports.EsModule.Literal

open Text

/-- The automaton gets from one place inside a literal to another over a text. -/
inductive Reads : Literal → List Char → Literal → Prop where
  | nil {l : Literal} : Reads l [] l
  | cons {l k m : Literal} {c : Char} {s : List Char} (h : l.step c = .inside k)
      (hs : Reads k s m) : Reads l (c :: s) m

theorem Reads.append {l k m : Literal} {s t : List Char} (hs : Reads l s k) (ht : Reads k t m) :
    Reads l (s ++ t) m := by
  induction hs with
  | nil => exact ht
  | cons h _ ih => exact .cons h (ih ht)

def string : Literal := ⟨.quoted '"', [], .none⟩

section

variable {c : Char}

theorem step_string_closing : string.step '"' = .closed := rfl

theorem reads_plain (h1 : c ≠ '\\') (h2 : c ≠ '\n') (h3 : c ≠ '"') : Reads string [c] string := by
  refine .cons ?_ .nil
  simp [string, step, h1, h2, h3]

theorem reads_escaped (c : Char) : Reads string ['\\', c] string := by
  refine .cons (k := ⟨.quoted '"', [], .escape⟩) ?_ (.cons ?_ .nil)
  · simp [string, step, stay]
  · simp [string, step, stay]

theorem reads_hexDigit {n : Nat} (hn : n < 16) : Reads string [Quoted.hexDigit n] string := by
  have plain : ∀ m < 16, Quoted.hexDigit m ≠ '\\' ∧ Quoted.hexDigit m ≠ '\n' ∧
      Quoted.hexDigit m ≠ '"' := by decide
  obtain ⟨h1, h2, h3⟩ := plain n hn
  exact reads_plain h1 h2 h3

theorem reads_escape (c : Char) : Reads string (Quoted.escape c) string := by
  unfold Quoted.escape
  by_cases h1 : c = '"'
  · simp only [if_pos h1]
    exact reads_escaped _
  by_cases h2 : c = '\\'
  · simp only [if_neg h1, if_pos h2]
    exact reads_escaped _
  by_cases h3 : c = '\n'
  · simp only [h3, Char.reduceEq, if_false, if_true]
    exact reads_escaped _
  simp only [if_neg h1, if_neg h2, if_neg h3]
  repeat' split
  · exact reads_escaped _
  · exact reads_escaped _
  · exact reads_escaped _
  · exact reads_escaped _
  · have zero : Reads string ['0'] string := reads_plain (by decide) (by decide) (by decide)
    have high := reads_hexDigit (show c.toNat / 16 < 16 by omega)
    have low := reads_hexDigit (Nat.mod_lt c.toNat (show 0 < 16 by decide))
    exact (reads_escaped 'u').append (zero.append (zero.append (high.append low)))
  · exact reads_plain h2 h3 h1

/-- Quoted text is inside the string up to the closing quotation mark. -/
theorem exists_reads_encodeBody (x : List Char) :
    ∃ w, Quoted.encodeBody x = w ++ ['"'] ∧ Reads string w string := by
  induction x with
  | nil => exact ⟨[], rfl, .nil⟩
  | cons c x ih =>
    obtain ⟨w, hw, hr⟩ := ih
    refine ⟨Quoted.escape c ++ w, ?_, (reads_escape c).append hr⟩
    rw [Quoted.encodeBody, hw, List.append_assoc]

end

end StyleExports.EsModule.Literal
