import StyleExports.EsModule.Binding
import StyleExports.Proofs.EsModule.Takes

namespace StyleExports.EsModule

open Text

/-- Text without marks but blanks, literals, and such text in brackets. -/
inductive Paired : List Char → Prop where
  | nil : Paired []
  | cons {c : Char} {s : List Char} (hc : Scan.isIdle c = true ∨ isSpace c = true)
      (hs : Paired s) : Paired (c :: s)
  | quoted {c q : Char} {l k : Literal} {x s : List Char} (ho : Literal.open? c = some l)
      (hx : l.Reads x k) (hq : k.step q = .closed) (hs : Paired s) : Paired (c :: (x ++ [q]) ++ s)
  | group {o e : Char} {u s : List Char} (ho : (o, e) ∈ Scan.bracketPairs) (hu : Paired u)
      (hs : Paired s) : Paired (o :: (u ++ [e]) ++ s)

namespace Paired

variable {s t : List Char}

theorem append (hs : Paired s) (ht : Paired t) : Paired (s ++ t) := by
  induction hs with
  | nil => exact ht
  | cons hc _ ih => exact .cons hc ih
  | quoted ho hx hq _ ih =>
    rw [List.append_assoc]
    exact .quoted ho hx hq ih
  | group ho hu _ _ ih =>
    rw [List.append_assoc]
    exact .group ho hu ih

theorem of_all (h : ∀ c ∈ s, Scan.isIdle c = true ∨ isSpace c = true) : Paired s := by
  induction s with
  | nil => exact .nil
  | cons c s ih =>
    rw [List.forall_mem_cons] at h
    exact .cons h.1 (ih h.2)

theorem join {sep : List Char} {ws : List (List Char)} (hsep : Paired sep)
    (hw : ∀ w ∈ ws, Paired w) : Paired (join sep ws) := by
  induction ws with
  | nil => exact .nil
  | cons w ws ih =>
    rw [List.forall_mem_cons] at hw
    cases ws with
    | nil => exact hw.1
    | cons v ws => exact (hw.1.append hsep).append (ih hw.2)

end Paired

namespace Scan

/-- Where brackets are open, no line feed ends the statement. -/
theorem takes_paired {s bs : List Char} (h : Paired s) (hb : bs ≠ []) :
    Takes (Settled bs) s (Settled bs) := by
  induction h generalizing bs with
  | nil => exact .nil
  | @cons c s hc _ ih =>
    have soft : ∀ d ∈ [c], isSoft bs d := by
      intro d hd
      obtain rfl := List.mem_singleton.mp hd
      exact hc.imp_right fun hs => ⟨hs, fun _ => hb⟩
    exact (takes_soft soft).append (ih hb)
  | quoted ho hx hq _ ih => exact (takes_quoted ho hx hq).append (ih hb)
  | group ho _ _ ihu ihs =>
    have inner : Takes (Settled bs) _ (Ready bs) := takes_group ho (ihu (by simp))
    exact (inner.imp (fun _ h => h) fun _ h => h.settled).append (ihs hb)

end Scan

/-- Text without marks but blanks, quoted text, and objects of such text. -/
inductive Balanced : List Char → Prop where
  | nil : Balanced []
  | cons {c : Char} {s : List Char} (hc : Scan.isIdle c = true ∨ isSpace c = true)
      (hs : Balanced s) : Balanced (c :: s)
  | quoted (x : List Char) {s : List Char} (hs : Balanced s) : Balanced (Quoted.encode x ++ s)
  | braces {u s : List Char} (hu : Balanced u) (hs : Balanced s) :
      Balanced ('{' :: (u ++ ['}']) ++ s)

namespace Balanced

variable {s t : List Char}

theorem append (hs : Balanced s) (ht : Balanced t) : Balanced (s ++ t) := by
  induction hs with
  | nil => exact ht
  | cons hc _ ih => exact .cons hc ih
  | quoted x _ ih =>
    rw [List.append_assoc]
    exact .quoted x ih
  | braces hu _ _ ih =>
    rw [List.append_assoc]
    exact .braces hu ih

theorem of_all (h : ∀ c ∈ s, Scan.isIdle c = true ∨ isSpace c = true) : Balanced s := by
  induction s with
  | nil => exact .nil
  | cons c s ih => exact .cons (h c (by simp)) (ih fun d hd => h d (by simp [hd]))

theorem encode (x : List Char) : Balanced (Quoted.encode x) := by
  have h := quoted x nil
  rwa [List.append_nil] at h

theorem object (h : Balanced s) : Balanced ('{' :: (s ++ ['}'])) := by
  have ho := braces h nil
  rwa [List.append_nil] at ho

theorem join {sep : List Char} {ws : List (List Char)} (hsep : Balanced sep)
    (hw : ∀ w ∈ ws, Balanced w) : Balanced (join sep ws) := by
  induction ws with
  | nil => exact .nil
  | cons w ws ih =>
    have rest := ih fun v hv => hw v (by simp [hv])
    cases ws with
    | nil => exact hw w (by simp)
    | cons v ws => exact ((hw w (by simp)).append hsep).append rest

theorem paired (h : Balanced s) : Paired s := by
  induction h with
  | nil => exact .nil
  | cons hc _ ih => exact .cons hc ih
  | quoted x _ ih =>
    obtain ⟨w, hw, hr⟩ := Literal.exists_reads_encodeBody x
    rw [Quoted.encode, hw]
    exact .quoted rfl hr Literal.step_string_closing ih
  | braces _ _ ihu ihs => exact .group (by decide) ihu ihs

end Balanced

namespace Scan

theorem takes_balanced {s bs : List Char} (h : Balanced s) (hb : bs ≠ []) :
    Takes (Settled bs) s (Settled bs) := takes_paired h.paired hb

end Scan

/-- No cut is made in a text: the parts begin with it, whatever follows. -/
def Spans (sep : Char) (d : Nat) (m : Inside) (s : List Char) (d' : Nat) (m' : Inside) : Prop :=
  ∀ (p : Option Char) (t : List Char), ∃ q,
    partsFrom sep d p m (s ++ t) = s.foldr consFirst (partsFrom sep d' q m' t)

section

variable {sep c : Char} {d : Nat} {s : List Char}

theorem Spans.append {d₁ d₂ d₃ : Nat} {m₁ m₂ m₃ : Inside} {s t : List Char}
    (hs : Spans sep d₁ m₁ s d₂ m₂) (ht : Spans sep d₂ m₂ t d₃ m₃) :
    Spans sep d₁ m₁ (s ++ t) d₃ m₃ := by
  intro p w
  obtain ⟨q, hq⟩ := hs p (t ++ w)
  obtain ⟨r, hr⟩ := ht q w
  exact ⟨r, by rw [List.append_assoc, hq, hr, List.foldr_append]⟩

theorem foldr_consFirst (s w : List Char) (ps : List (List Char)) :
    s.foldr consFirst (w :: ps) = (s ++ w) :: ps := by
  induction s with
  | nil => rfl
  | cons c s ih => rw [List.foldr_cons, ih]; rfl

theorem parts_of_spans {d' : Nat} {m' : Inside} (h : Spans sep 0 .plain s d' m') :
    parts sep s = [s] := by
  obtain ⟨q, hq⟩ := h none []
  rw [List.append_nil, partsFrom, foldr_consFirst, List.append_nil] at hq
  exact hq

/-- Only quotation marks and brackets are of any moment but the separator. -/
theorem spans_char (hc : c ∉ ['"', '\'', '`', '(', '[', '{', ')', ']', '}']) (hs : c ≠ sep ∨ d ≠ 0) :
    Spans sep d .plain [c] d .plain := by
  simp only [List.mem_cons, List.not_mem_nil, or_false, not_or] at hc
  obtain ⟨h1, h2, h3, h4, h5, h6, h7, h8, h9⟩ := hc
  have cut : ¬(c = sep ∧ d = 0) := by
    rintro ⟨he, hd⟩
    exact hs.elim (absurd he) (absurd hd)
  intro p t
  refine ⟨some c, ?_⟩
  rw [List.singleton_append, partsFrom]
  simp only [Literal.open?, h1, h2, h3, h4, h5, h6, h7, h8, h9, or_self, if_false]
  rw [if_neg fun hcut => cut ⟨hcut.1, hcut.2.1⟩]
  rfl

theorem spans_chars (hc : ∀ c ∈ s, c ∉ ['"', '\'', '`', '(', '[', '{', ')', ']', '}'])
    (hs : ∀ c ∈ s, c ≠ sep ∨ d ≠ 0) : Spans sep d .plain s d .plain := by
  induction s with
  | nil => exact fun p t => ⟨p, rfl⟩
  | cons c s ih =>
    rw [List.forall_mem_cons] at hc hs
    have one : Spans sep d .plain [c] d .plain := spans_char hc.1 hs.1
    exact one.append (ih hc.2 hs.2)

theorem not_mem_marks (hc : Scan.isIdle c = true ∨ isSpace c = true) :
    c ∉ ['"', '\'', '`', '(', '[', '{', ')', ']', '}'] := by
  intro hm
  have special : ∀ e ∈ ['"', '\'', '`', '(', '[', '{', ')', ']', '}'],
      Scan.isIdle e = false ∧ isSpace e = false := forall_mem_of_all (by decide)
  simp [special c hm] at hc

theorem spans_idle (hc : Scan.isIdle c = true ∨ isSpace c = true) (hs : c ≠ sep ∨ d ≠ 0) :
    Spans sep d .plain [c] d .plain := spans_char (not_mem_marks hc) hs

theorem spans_all (hc : ∀ c ∈ s, Scan.isIdle c = true ∨ isSpace c = true)
    (hs : ∀ c ∈ s, c ≠ sep ∨ d ≠ 0) : Spans sep d .plain s d .plain :=
  spans_chars (fun c h => not_mem_marks (hc c h)) hs

theorem spans_literal {l k : Literal} (h : l.Reads s k) :
    Spans sep d (.literal l) s d (.literal k) := by
  induction h with
  | nil => exact fun p t => ⟨p, rfl⟩
  | @cons l j k c s h _ ih =>
    have one : Spans sep d (.literal l) [c] d (.literal j) := by
      refine fun p t => ⟨some c, ?_⟩
      rw [List.singleton_append, partsFrom, h]
      rfl
    exact one.append ih

theorem spans_quoted {q : Char} {l k : Literal} (ho : Literal.open? c = some l) (hs : l.Reads s k)
    (hq : k.step q = .closed) : Spans sep d .plain (c :: (s ++ [q])) d .plain := by
  have opens : Spans sep d .plain [c] d (.literal l) := by
    refine fun p t => ⟨some c, ?_⟩
    rw [List.singleton_append, partsFrom, ho]
    rfl
  have closing : Spans sep d (.literal k) [q] d .plain := by
    refine fun p t => ⟨some q, ?_⟩
    rw [List.singleton_append, partsFrom, hq]
    rfl
  exact opens.append ((spans_literal hs).append closing)

theorem spans_encode (x : List Char) : Spans sep d .plain (Quoted.encode x) d .plain := by
  obtain ⟨w, hw, hr⟩ := Literal.exists_reads_encodeBody x
  rw [Quoted.encode, hw]
  exact spans_quoted rfl hr Literal.step_string_closing

theorem spans_group {o e : Char} (ho : (o, e) ∈ Scan.bracketPairs)
    (h : Spans sep (d + 1) .plain s (d + 1) .plain) :
    Spans sep d .plain (o :: (s ++ [e])) d .plain := by
  have opens : Spans sep d .plain [o] (d + 1) .plain := by
    refine fun p t => ⟨some o, ?_⟩
    rcases Scan.mem_bracketPairs.mp ho with ⟨rfl, -⟩ | ⟨rfl, -⟩ | ⟨rfl, -⟩
    all_goals
      rw [List.singleton_append, partsFrom]
      rfl
  have closing : Spans sep (d + 1) .plain [e] d .plain := by
    refine fun p t => ⟨some e, ?_⟩
    rcases Scan.mem_bracketPairs.mp ho with ⟨-, rfl⟩ | ⟨-, rfl⟩ | ⟨-, rfl⟩
    all_goals
      rw [List.singleton_append, partsFrom]
      rfl
  exact opens.append (h.append closing)

theorem spans_braces (h : Spans sep (d + 1) .plain s (d + 1) .plain) :
    Spans sep d .plain ('{' :: (s ++ ['}'])) d .plain :=
  spans_group (by decide) h

theorem spans_paired (h : Paired s) (d : Nat) : Spans sep (d + 1) .plain s (d + 1) .plain := by
  induction h generalizing d with
  | nil => exact fun p t => ⟨p, rfl⟩
  | cons hc _ ih => exact (spans_idle hc (.inr (by omega))).append (ih d)
  | quoted ho hx hq _ ih => exact (spans_quoted ho hx hq).append (ih d)
  | group ho _ _ ihu ihs => exact (spans_group ho (ihu (d + 1))).append (ihs d)

theorem spans_balanced (h : Balanced s) (d : Nat) : Spans sep (d + 1) .plain s (d + 1) .plain :=
  spans_paired h.paired d

end

end StyleExports.EsModule
