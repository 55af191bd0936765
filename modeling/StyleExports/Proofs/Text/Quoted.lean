import StyleExports.Text.Quoted

namespace StyleExports.Text.Quoted

theorem hexValue?_hexDigit {n : Nat} (h : n < 16) : hexValue? (hexDigit n) = some n := by
  have digits : ∀ m < 16, hexValue? (hexDigit m) = some m := by decide
  exact digits n h

theorem escaped?_control {c : Char} (h : c.toNat < 0x20) (s : List Char) :
    escaped? ('u' :: '0' :: '0' :: hexDigit (c.toNat / 16) :: hexDigit (c.toNat % 16) :: s) =
      some (c, s) := by
  have zero : hexValue? '0' = some 0 := rfl
  have high := hexValue?_hexDigit (show c.toNat / 16 < 16 by omega)
  have low := hexValue?_hexDigit (Nat.mod_lt c.toNat (show 0 < 16 by decide))
  have value : ((0 * 16 + 0) * 16 + c.toNat / 16) * 16 + c.toNat % 16 = c.toNat := by omega
  have unit : unit? ('0' :: '0' :: hexDigit (c.toNat / 16) :: hexDigit (c.toNat % 16) :: s) =
      some (c.toNat, s) := by
    simp only [unit?, zero, high, low, Option.bind_eq_bind, Option.bind_some, value]
    rfl
  have trailing : isTrailing c.toNat = false := by
    simp only [isTrailing, Bool.and_eq_false_iff, decide_eq_false_iff_not]
    omega
  have leading : isLeading c.toNat = false := by
    simp only [isLeading, Bool.and_eq_false_iff, decide_eq_false_iff_not]
    omega
  simp [escaped?, numeric?, unit, trailing, leading]

theorem decodeBody_backslash {s t : List Char} {c : Char} (h : escaped? s = some (c, t)) :
    decodeBody ('\\' :: s) = (decodeBody t).map fun (u, r) => (c :: u, r) := by
  rw [decodeBody, if_neg (by decide), if_pos rfl]
  split <;> simp_all

/-- A character is read back from its spelling. -/
theorem decodeBody_escape (c : Char) (s : List Char) :
    decodeBody (escape c ++ s) = (decodeBody s).map fun (u, r) => (c :: u, r) := by
  unfold escape
  by_cases h1 : c = '"'
  · rw [if_pos h1, h1]
    exact decodeBody_backslash rfl
  by_cases h2 : c = '\\'
  · rw [if_neg h1, if_pos h2, h2]
    exact decodeBody_backslash rfl
  have short {d e : Char} (hd : c = d) (he : short? e = some d) (hu : e ≠ 'u') :
      decodeBody (['\\', e] ++ s) = (decodeBody s).map fun (u, r) => (c :: u, r) := by
    apply decodeBody_backslash
    simp [escaped?, hu, he, hd]
  rw [if_neg h1, if_neg h2]
  split
  · exact short ‹_› rfl (by decide)
  split
  · exact short ‹_› rfl (by decide)
  split
  · exact short ‹_› rfl (by decide)
  split
  · exact short ‹_› rfl (by decide)
  split
  · exact short ‹_› rfl (by decide)
  split
  · rename_i hc
    exact decodeBody_backslash (escaped?_control hc s)
  · rename_i hc
    rw [List.singleton_append, decodeBody, if_neg h1, if_neg h2, if_neg hc]

/-- The text of a literal is read back, and what follows the literal is left. -/
theorem decodeBody_encodeBody (x s : List Char) :
    decodeBody (encodeBody x ++ s) = some (x, s) := by
  induction x with
  | nil => rw [encodeBody, List.singleton_append, decodeBody, if_pos rfl]
  | cons c x ih =>
    rw [encodeBody, List.append_assoc, decodeBody_escape, ih]
    rfl

/-- A literal in front of a text determines what it quotes and the text. -/
theorem encode_append_inj {x y s t : List Char} (h : encode x ++ s = encode y ++ t) :
    x = y ∧ s = t := by
  have body : encodeBody x ++ s = encodeBody y ++ t := (List.cons.inj h).2
  have both := congrArg decodeBody body
  rw [decodeBody_encodeBody, decodeBody_encodeBody] at both
  exact Prod.mk.inj (Option.some.inj both)

end StyleExports.Text.Quoted
