import StyleExports.Proofs.Text.Trim
import StyleExports.Stylesheet.Sheet

namespace StyleExports.Stylesheet

open Text

/-- A blank is blank, and every other token holds some text. -/
def Token.Sound (t : Token) : Prop :=
  t.toText ≠ [] ∧ ∀ w, t = .blank w → ∀ c ∈ w, isSpace c

theorem Token.sound_next (c : Char) (s : List Char) : (next c s).1.Sound := by
  refine ⟨next_toText_ne_nil c s, fun w hw => ?_⟩
  unfold next at hw
  split at hw
  · obtain rfl := Token.blank.inj hw
    intro d hd
    rcases List.mem_cons.mp hd with rfl | hd
    · assumption
    · exact List.mem_takeWhile_imp hd
  · unfold ofItem at hw
    repeat' split at hw
    all_goals simp at hw

theorem sound_of_mem_tokens {s : List Char} {t : Token} (h : t ∈ tokens s) : t.Sound := by
  fun_induction tokens s with
  | case1 => simp at h
  | case2 c s ih =>
    rcases List.mem_cons.mp h with rfl | h
    · exact Token.sound_next c s
    · exact ih h

def Piece.Sound : Piece → Prop
  | .blank t => ∀ c ∈ t, isSpace c
  | p => p.toText ≠ []

namespace Sheet

/-- All pieces are sound, and a block that nothing closes is the last, as are those around it. -/
def Sound : Sheet → Prop
  | .empty => True
  | .piece p rest => p.Sound ∧ rest.Sound
  | .block _ inner closed rest =>
    inner.Sound ∧ rest.Sound ∧ (closed = true → inner.unclosed = 0) ∧
      (closed = false → rest = .empty)

theorem Sound.append {s t : Sheet} (hs : s.Sound) (hc : s.unclosed = 0) (ht : t.Sound) :
    (s ++ t).Sound := by
  induction s with
  | empty => exact ht
  | piece p rest ih => exact ⟨hs.1, ih hs.2 hc⟩
  | block prelude inner closed rest _ ih =>
    obtain ⟨hi, hr, hclosed, -⟩ := hs
    simp only [unclosed] at hc
    cases closed with
    | true => exact ⟨hi, ih hr (by omega), hclosed, by simp⟩
    | false => simp at hc

/-- Sheets between braces that close nothing in them: all are sound, and nothing is left open but
in the last. -/
def Leveled (first : Sheet) : List Sheet → Prop
  | [] => first.Sound
  | next :: more => first.Sound ∧ first.unclosed = 0 ∧ next.Leveled more

theorem Leveled.sound {first : Sheet} {more : List Sheet} (h : first.Leveled more) :
    first.Sound := by
  cases more with
  | nil => exact h
  | cons next more => exact h.1

theorem Leveled.congr {first other : Sheet} {more : List Sheet} (h : first.Leveled more)
    (hs : other.Sound) (hc : first.unclosed = 0 → other.unclosed = 0) : other.Leveled more := by
  cases more with
  | nil => exact hs
  | cons next more => exact ⟨hs, hc h.2.1, h.2.2⟩

theorem leveled_consToken {t : Token} {l : Sheet × List Sheet} (ht : t.Sound)
    (hl : l.1.Leveled l.2) : (consToken t l).1.Leveled (consToken t l).2 := by
  obtain ⟨first, more⟩ := l
  have piece {p : Piece} (hp : p.Sound) : (Sheet.piece p first).Leveled more :=
    hl.congr ⟨hp, hl.sound⟩ fun h => h
  cases t with
  | blank w => exact piece (p := .blank w) (ht.2 w rfl)
  | comment w => exact piece (p := .comment w) ht.1
  | statement w semicolon => exact piece (p := .statement w semicolon) ht.1
  | closing => exact ⟨trivial, rfl, hl⟩
  | opening prelude =>
    cases more with
    | nil => exact ⟨hl, trivial, by simp, by simp⟩
    | cons next more =>
      obtain ⟨hf, hc, hn⟩ := hl
      replace hc : first.unclosed = 0 := hc
      refine hn.congr ⟨hf, hn.sound, fun _ => hc, by simp⟩ fun h => ?_
      change first.unclosed + 0 + next.unclosed = 0
      rw [hc, h]

theorem leveled_levels {ts : List Token} (h : ∀ t ∈ ts, t.Sound) :
    (levels ts).1.Leveled (levels ts).2 := by
  induction ts with
  | nil => trivial
  | cons t ts ih =>
    exact leveled_consToken (h t List.mem_cons_self) (ih fun u hu => h u (List.mem_cons_of_mem _ hu))

theorem sound_withStrays {first : Sheet} {more : List Sheet} (h : first.Leveled more) :
    (withStrays first more).Sound := by
  induction more generalizing first with
  | nil => exact h
  | cons next more ih =>
    obtain ⟨hf, hc, hn⟩ := h
    exact hf.append hc ⟨by simp [Piece.Sound, Piece.toText], ih hn⟩

/-- Every sheet that is read from a text is sound. -/
theorem sound_ofText (s : List Char) : (ofText s).Sound :=
  sound_withStrays (leveled_levels fun _ h => sound_of_mem_tokens h)

end Sheet

end StyleExports.Stylesheet
