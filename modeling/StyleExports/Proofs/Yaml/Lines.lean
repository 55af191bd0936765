import Mathlib.Data.List.Basic
import StyleExports.Yaml.Lexer

namespace StyleExports.Yaml

/-- A character that ends no line, whatever stands behind it. -/
def isInline (c : Char) : Bool := !(c == '\r' || c == '\n' || c == '\u0085' || isBreak c)

def onLine (i l c : Nat) : List Char → List Mark
  | [] => []
  | d :: w => ⟨d, i, l, c⟩ :: onLine (i + 1) l (c + 1) w

theorem char_mem_of_mem_onLine {w : List Char} {i l c : Nat} {m : Mark} (h : m ∈ onLine i l c w) :
    m.char ∈ w := by
  induction w generalizing i c with
  | nil => simp [onLine] at h
  | cons d w ih =>
    rcases List.mem_cons.mp h with rfl | h
    · exact List.mem_cons_self
    · exact List.mem_cons_of_mem _ (ih h)

namespace Mark

theorem ofChars_cons {c : Char} (h : isInline c = true) (i l n : Nat) (s : List Char) :
    ofChars i l n (c :: s) = ⟨c, i, l, n⟩ :: ofChars (i + 1) l (n + 1) s := by
  simp only [isInline, Bool.not_eq_true', Bool.or_eq_false_iff, beq_eq_false_iff_ne] at h
  obtain ⟨⟨⟨hr, hn⟩, hu⟩, hb⟩ := h
  rw [ofChars]
  · rw [if_neg (by simp [hr, hn, hu]), if_neg (by simp [hb])]
  · exact fun _ h => absurd h hr

theorem ofChars_append {w : List Char} (h : ∀ c ∈ w, isInline c = true) (i l n : Nat)
    (s : List Char) :
    ofChars i l n (w ++ s) = onLine i l n w ++ ofChars (i + w.length) l (n + w.length) s := by
  induction w generalizing i n with
  | nil => rfl
  | cons c w ih =>
    rw [List.cons_append, ofChars_cons (h c List.mem_cons_self),
      ih fun d hd => h d (List.mem_cons_of_mem _ hd), onLine, List.length_cons, List.cons_append]
    congr 3 <;> omega

theorem ofChars_newline (i l n : Nat) (s : List Char) :
    ofChars i l n ('\n' :: s) = ⟨'\n', i, l, n⟩ :: ofChars (i + 1) (l + 1) 0 s := by
  rw [ofChars]
  · rw [if_pos (by simp)]
  · exact fun _ h => absurd h (by decide)

end Mark

/-- A character that stands for itself between double quotation marks. -/
def isVerbatim (c : Char) : Bool := isAllowed c && isInline c && c != '"' && c != '\\'

section

variable {w : List Char} {s : List Mark} {m : Mark}

theorem isWordChar_ne {c d : Char} (hc : isWordChar c = true) (hd : isWordChar d = false) : c ≠ d := by
  rintro rfl
  rw [hd] at hc
  cases hc

theorem isWordChar_beq {c d : Char} (hc : isWordChar c = true) (hd : isWordChar d = false) :
    (c == d) = false := beq_eq_false_iff_ne.mpr (isWordChar_ne hc hd)

theorem isInline_of_word {c : Char} (h : isWordChar c = true) : isInline c = true := by
  simp [isInline, isBreak, isWordChar_beq h (d := '\r') (by decide),
    isWordChar_beq h (d := '\n') (by decide), isWordChar_beq h (d := '\u0085') (by decide),
    isWordChar_beq h (d := '\u2028') (by decide), isWordChar_beq h (d := '\u2029') (by decide)]

/-- The characters of words are taken into a plain scalar one by one. -/
theorem plainScalar_word (h : ∀ c ∈ w, isWordChar c = true) (indent : Int) (text : List Char)
    (i l n : Nat) : plainScalar false indent text .empty (onLine i l n w ++ s) =
      plainScalar false indent (w.reverse ++ text) .empty s := by
  induction w generalizing i n text with
  | nil => rfl
  | cons c w ih =>
    have hc := h c List.mem_cons_self
    have other (d : Char) (hd : isWordChar d = false) : (c == d) = false := isWordChar_beq hc hd
    have blank : isBlank c = false := by simp [isBlank, other ' ' (by decide), other '\t' (by decide)]
    have break' : isBreak c = false := by
      simp [isBreak, other '\n' (by decide), other '\u2028' (by decide), other '\u2029' (by decide)]
    have here : c ≠ endChar := isWordChar_ne hc (by decide)
    rw [onLine, List.cons_append, plainScalar]
    simp only [blank, break', here, Bool.false_eq_true, if_false]
    rw [if_neg (by simp [Gap.isEmpty, Gap.empty]), if_neg (by simp [isBadColon]),
      if_neg (by simp [endsPlain, other ':' (by decide)])]
    rw [show Gap.empty.fold = [] from rfl, List.reverse_nil, List.nil_append,
      ih fun d hd => h d (List.mem_cons_of_mem _ hd), List.reverse_cons, List.append_assoc]
    rfl

/-- A colon with a gap behind it ends a plain scalar. -/
theorem plainScalar_colon (hm : m.char = ':') (hs : isGap (peek s) = true) (indent : Int)
    (text : List Char) :
    plainScalar false indent text .empty (m :: s) = some (text.reverse, false, m :: s) := by
  rw [plainScalar]
  simp only [hm]
  rw [if_neg (by decide), if_neg (by decide), if_neg (by decide),
    if_neg (by simp [Gap.isEmpty, Gap.empty]), if_neg (by simp [isBadColon]),
    if_pos (by simp [endsPlain, hs])]
  rfl

theorem plainScalar_break {m' : Mark} (hm : m.char = '\n') (blank : isBlank m'.char = false)
    (break' : isBreak m'.char = false) {indent : Int} (deeper : m'.column < indent)
    (text : List Char) :
    plainScalar false indent text .empty (m :: m' :: s) = some (text.reverse, true, m' :: s) := by
  rw [plainScalar]
  simp only [hm]
  rw [if_neg (by decide), if_pos (by decide), plainScalar]
  simp only [blank, break', Bool.false_eq_true, if_false]
  by_cases he : m'.char = endChar
  · rw [if_pos he]
    rfl
  · rw [if_neg he, if_pos (by simp [Gap.isEmpty, Gap.addBreak, Gap.empty, deeper])]
    rfl

/-- What stands between double quotation marks on one line and stands for itself is read as it is.
-/
theorem quotedScalar_verbatim (h : ∀ c ∈ w, isVerbatim c = true) (text blanks : List Char)
    (i l : Nat) {n : Nat} (column : 0 < n) (hm : m.char = '"') :
    quotedScalar false .text text ⟨blanks, false, [], []⟩ (onLine i l n w ++ m :: s) =
      some (text.reverse ++ blanks ++ w, s) := by
  induction w generalizing i n text blanks with
  | nil =>
    rw [onLine, List.nil_append, quotedScalar]
    simp only [hm]
    rw [if_neg (by decide), if_neg (by decide), if_neg (by decide), if_neg (by decide), if_pos trivial]
    simp [Gap.fold]
  | cons c w ih =>
    have hc := h c List.mem_cons_self
    have rest := fun text blanks => @ih (fun d hd => h d (List.mem_cons_of_mem _ hd)) text blanks
      (i + 1) (n + 1) (by omega)
    simp only [isVerbatim, Bool.and_eq_true, bne_iff_ne] at hc
    obtain ⟨⟨⟨allowed, inline⟩, quote⟩, backslash⟩ := hc
    have break' : isBreak c = false := by
      simp only [isInline, Bool.not_eq_true', Bool.or_eq_false_iff] at inline
      exact inline.2
    have here : c ≠ endChar := by
      rintro rfl
      exact absurd allowed (by decide)
    rw [onLine, List.cons_append, quotedScalar]
    simp only [break', here, Bool.false_eq_true, if_false, if_neg quote, if_neg backslash]
    by_cases blank : isBlank c = true
    · rw [if_pos blank]
      have step : (⟨blanks, false, [], []⟩ : Gap).addBlank c = ⟨blanks ++ [c], false, [], []⟩ := rfl
      rw [step, rest]
      simp
    · have line : isDocumentMark (⟨c, i, l, n⟩ :: (onLine (i + 1) l (n + 1) w ++ m :: s)) = false := by
        have front : columnOf (⟨c, i, l, n⟩ :: (onLine (i + 1) l (n + 1) w ++ m :: s)) = n := rfl
        rw [isDocumentMark, front]
        simp [show (n == 0) = false by simp; omega]
      rw [if_neg blank, line, if_neg (by simp)]
      have step := rest (c :: ((⟨blanks, false, [], []⟩ : Gap).fold.reverse ++ text)) []
      rw [show Gap.empty = ⟨[], false, [], []⟩ from rfl, step]
      simp [Gap.fold]

end

namespace Lexer

/-- Reading comes to another state and the marks that are left. Every token takes at least one mark.
-/
def Reads (x : Lexer) (s : List Mark) (y : Lexer) (t : List Mark) : Prop :=
  ∃ k, k + t.length ≤ s.length ∧ ∀ n, run? (k + n) x s = run? n y t

variable {x y z : Lexer} {s t u : List Mark} {m : Mark}

theorem Reads.refl (x : Lexer) (s : List Mark) : Reads x s x s := ⟨0, by omega, fun n => by simp⟩

theorem Reads.trans (h : Reads x s y t) (h' : Reads y t z u) : Reads x s z u := by
  obtain ⟨j, hj, first⟩ := h
  obtain ⟨k, hk, rest⟩ := h'
  exact ⟨j + k, by omega, fun n => by rw [Nat.add_assoc, first, rest]⟩

/-- Marks between tokens, with what they say about keys. -/
theorem reads_of_skip (allowed : Bool) (h : skip x.inFlow false x.keyAllowed s =
    skip x.inFlow false allowed t) (length : t.length ≤ s.length) :
    Reads x s { x with keyAllowed := allowed } t := by
  refine ⟨0, by omega, fun n => ?_⟩
  cases n with
  | zero => rfl
  | succ n =>
    rw [Nat.zero_add, run?, h]
    rfl

theorem reads_space (h : m.char = ' ') : Reads x (m :: s) x s := by
  refine reads_of_skip x.keyAllowed ?_ (by simp)
  rw [skip]
  simp [h, isBreak]

theorem reads_break (hf : x.outerKeys = []) (h : isBreak m.char = true) :
    Reads x (m :: s) { x with keyAllowed := true } s := by
  refine reads_of_skip true ?_ (by simp)
  rw [skip]
  simp [h, inFlow, hf]

theorem skip_comment {w : List Mark} (h : ∀ m ∈ w, isBreak m.char = false ∧ m.char ≠ endChar)
    (inFlow allowed : Bool) : skip inFlow true allowed (w ++ s) = skip inFlow true allowed s := by
  induction w with
  | nil => rfl
  | cons m w ih =>
    obtain ⟨hb, he⟩ := h m List.mem_cons_self
    rw [List.cons_append, skip]
    simp only [hb, he, Bool.false_eq_true, if_false, if_true]
    exact ih fun n hn => h n (List.mem_cons_of_mem _ hn)

def isSkipped (c : Char) : Bool := isBlank c || isBreak c || c == '#' || c == byteOrderMark

theorem skip_stop (h : isSkipped m.char = false) (inFlow allowed : Bool) :
    skip inFlow false allowed (m :: s) = (m :: s, allowed) := by
  simp only [isSkipped, isBlank, Bool.or_eq_false_iff, beq_eq_false_iff_ne] at h
  obtain ⟨⟨⟨⟨hs, ht⟩, hb⟩, hc⟩, hm⟩ := h
  rw [skip]
  simp [hb, hs, ht, hc, hm]

theorem reads_token (h : isSkipped m.char = false) (he : m.char ≠ endChar)
    (ht : (x.unroll m.column).token? m s = some (y, t)) (length : t.length ≤ s.length) :
    Reads x (m :: s) y t := by
  refine ⟨1, by simp; omega, fun n => ?_⟩
  rw [Nat.add_comm, run?, skip_stop h]
  simp only [if_neg he]
  rw [ht]

theorem keyAllowed_unroll (column : Int) : (x.unroll column).keyAllowed = x.keyAllowed := by
  unfold unroll
  split <;> rfl

theorem unroll_of_le {column : Int} (h : x.indent ≤ column) : x.unroll column = x := by
  unfold unroll
  split
  · rfl
  · cases ho : x.outer with
    | nil => rw [unrollTo]; cases x; simp_all
    | cons i outer => rw [unrollTo, if_neg (by omega)]; cases x; simp_all

theorem isDocumentMark_of_ne (dash : m.char ≠ '-') (dot : m.char ≠ '.') :
    isDocumentMark (m :: s) = false := by
  simp [isDocumentMark, dash, dot]

theorem token?_letter (h : m.char.isAlpha = true) : x.token? m s = x.plain? (m :: s) := by
  have other {d : Char} (hd : d.isAlpha = false) : m.char ≠ d := by
    rintro rfl
    rw [hd] at h
    cases h
  have mark : isDocumentMark (m :: s) = false :=
    isDocumentMark_of_ne (other (by decide)) (other (by decide))
  have starts (inFlow : Bool) (next : Char) : startsPlain inFlow m.char next = true := by
    have gap : isGap m.char = false := by
      have apart {d : Char} (hd : d.isAlpha = false) : (m.char == d) = false :=
        beq_eq_false_iff_ne.mpr (other hd)
      simp [isGap, isBlank, isBreak, endChar, apart]
    have indicators : ['-', '?', ':', ',', '[', ']', '{', '}', '#', '&', '*', '!', '|', '>', '\'',
        '"', '%', '@', '`'].all (!·.isAlpha) = true := by decide
    have free : m.char ∉ ['-', '?', ':', ',', '[', ']', '{', '}', '#', '&', '*', '!', '|', '>', '\'',
        '"', '%', '@', '`'] := fun hm =>
      other (by simpa using List.all_eq_true.mp indicators _ hm) rfl
    rw [startsPlain, gap, Bool.false_or, decide_eq_false free]
    rfl
  unfold token?
  rw [if_neg (fun h => other (by decide) h.1), mark, if_neg (by simp), if_neg (other (by decide)),
    if_neg (other (by decide)), if_neg (other (by decide)), if_neg (other (by decide)),
    if_neg (other (by decide)), if_neg (fun h => other (by decide) h.1),
    if_neg (fun h => other (by decide) h.1), if_neg (fun h => other (by decide) h.1),
    if_neg (other (by decide)), if_neg (other (by decide)), if_neg (other (by decide)),
    if_neg (fun h => other (by decide) h.1), if_neg (fun h => other (by decide) h.1),
    if_neg (other (by decide)), if_neg (other (by decide)), if_pos (starts _ _)]

theorem token?_colon (h : m.char = ':') (gap : isGap (peek s) = true) :
    x.token? m s = (x.value? m).map (·, s) := by
  have mark : isDocumentMark (m :: s) = false :=
    isDocumentMark_of_ne (by simp [h]) (by simp [h])
  unfold token?
  simp [h, mark, gap]

theorem token?_dash (h : m.char = '-') (gap : isGap (peek s) = true) :
    x.token? m s = (x.entryAt? m).map (·, s) := by
  have mark : isDocumentMark (m :: s) = false := by
    have other : peek s ≠ '-' := by
      intro hd
      rw [hd] at gap
      exact absurd gap (by decide)
    cases s with
    | nil => simp [isDocumentMark, h]
    | cons n s =>
      have other : n.char ≠ '-' := other
      simp [isDocumentMark, h, other]
  unfold token?
  simp [h, mark, gap]

theorem token?_quote (h : m.char = '"') : x.token? m s = x.quoted? false (m :: s) := by
  have mark : isDocumentMark (m :: s) = false :=
    isDocumentMark_of_ne (by simp [h]) (by simp [h])
  unfold token?
  simp [h, mark]

theorem token?_open (h : m.char = '\x7b') :
    x.token? m s = (x.open? (m :: s) .flowMapStart).map (·, s) := by
  have mark : isDocumentMark (m :: s) = false :=
    isDocumentMark_of_ne (by simp [h]) (by simp [h])
  unfold token?
  simp [h, mark]

theorem token?_close (h : m.char = '\x7d') :
    x.token? m s = (x.close? .flowMapEnd).map (·, s) := by
  have mark : isDocumentMark (m :: s) = false :=
    isDocumentMark_of_ne (by simp [h]) (by simp [h])
  unfold token?
  simp [h, mark]

theorem emitAt_append (later ts : List Token) (h : x.tokens = later ++ ts) (t : Token) :
    x.emitAt ts.length t = { x with tokens := later ++ t :: ts } := by
  have more : x.tokens.length - ts.length = later.length := by
    rw [h, List.length_append]
    omega
  unfold emitAt
  rw [more, h, List.take_left, List.drop_left]

end Lexer

/-- How far a text in block context has been read: its tokens, last one first, and the indentation
of the blocks that are open. -/
structure Level where
  tokens : List Token
  indent : Int
  outer : List Int

/-- A block collection that begins at a column, unless it is open. -/
def Level.enter (v : Level) (column : Nat) (t : Token) : Level :=
  if v.indent < column then ⟨t :: v.tokens, column, v.indent :: v.outer⟩ else v

/-- The block collections that began behind a column have ended. -/
def Level.unroll (v : Level) (column : Int) : Level :=
  match Lexer.unrollTo column v.outer v.indent v.tokens with
  | (tokens, indent, outer) => ⟨tokens, indent, outer⟩

def Level.emit (v : Level) (ts : List Token) : Level := { v with tokens := ts ++ v.tokens }

namespace Lexer

/-- A state in block context in which no key has to come. -/
structure At (x : Lexer) (v : Level) : Prop where
  tokens : x.tokens = v.tokens
  indent : x.indent = v.indent
  outer : x.outer = v.outer
  outerKeys : x.outerKeys = []
  key : ∀ k ∈ x.key, k.required = false

namespace At

variable {x : Lexer} {v : Level} (h : At x v)

include h

theorem inFlow : x.inFlow = false := by simp [Lexer.inFlow, h.outerKeys]

theorem dropKey? : x.dropKey? = some { x with key := none } := by
  unfold Lexer.dropKey?
  cases hk : x.key with
  | none => cases x; simp_all
  | some k => simp [h.key k hk]

theorem unroll (column : Int) : At (x.unroll column) (v.unroll column) := by
  unfold Lexer.unroll Level.unroll
  rw [h.inFlow, if_neg (by simp), h.outer, h.indent, h.tokens]
  exact ⟨rfl, rfl, rfl, h.outerKeys, h.key⟩

theorem roll (column : Nat) (t : Token) : At (x.roll column x.tokens.length t) (v.enter column t) := by
  unfold Lexer.roll Level.enter
  rw [h.inFlow, if_neg (by simp), h.indent]
  split
  · have front := emitAt_append (x := { x with indent := column, outer := v.indent :: x.outer })
      [] x.tokens rfl t
    rw [front]
    exact ⟨by simp [h.tokens], rfl, by simp [h.outer], h.outerKeys, h.key⟩
  · exact h

theorem saveKey? (allowed : x.keyAllowed = true) (m : Mark) (s : List Mark) :
    x.saveKey? (m :: s) = some { x with
      key := some ⟨v.indent == m.column, v.tokens.length, m.index, m.line, m.column⟩ } := by
  unfold Lexer.saveKey?
  rw [if_pos allowed]
  simp only [h.dropKey?, h.inFlow, h.indent, h.tokens, Option.map_some]
  rfl

end At

variable {x : Lexer} {s : List Mark} {m : Mark}

/-- A colon makes a key of the scalar in front of it, and opens a map there unless one is open. -/
theorem value?_key {v : Level} {k : KeyPlace} {t : Token} (hx : x.tokens = t :: v.tokens)
    (hi : x.indent = v.indent) (ho : x.outer = v.outer) (hf : x.outerKeys = [])
    (hk : x.key = some k) (position : k.position = v.tokens.length) (near : isNear k m = true) :
    ∃ y, x.value? m = some y ∧ y.keyAllowed = false ∧ y.key = none ∧
      At y ((v.enter k.column .blockMapStart).emit [.value, t, .key]) := by
  -- the token of a key stands in front of the scalar, that of a new map in front of both
  have flow : x.inFlow = false := by simp [inFlow, hf]
  have key : x.emitAt v.tokens.length .key = { x with tokens := [t] ++ .key :: v.tokens } :=
    emitAt_append _ _ hx .key
  unfold value?
  rw [hk]
  simp only [near, if_true, position, key, Option.map_some]
  refine ⟨_, rfl, rfl, rfl, ?_⟩
  unfold roll Level.enter
  have flow' : ({ x with tokens := [t] ++ .key :: v.tokens } : Lexer).inFlow = false := flow
  rw [flow', if_neg (by simp), hi]
  split
  · have front := emitAt_append (x := { x with
      tokens := [t] ++ .key :: v.tokens, indent := k.column, outer := v.indent :: x.outer })
      [t, .key] v.tokens rfl .blockMapStart
    dsimp only at front ⊢
    rw [front]
    exact ⟨rfl, rfl, by simp [Lexer.emit, Level.emit, ho], hf, by simp [Lexer.emit]⟩
  · exact ⟨rfl, rfl, ho, hf, by simp [Lexer.emit]⟩

theorem plain?_eq {y : Lexer} {t : List Mark} {text : List Char} {broken : Bool}
    (saved : x.saveKey? s = some y) (flow : y.outerKeys = [])
    (read : plainScalar false (y.indent + 1) [] .empty s = some (text, broken, t)) :
    x.plain? s = some ({ y with keyAllowed := broken }.emit (.scalar text .plain), t) := by
  have here : y.inFlow = false := by simp [inFlow, flow]
  unfold plain?
  rw [saved]
  simp only [bind, Option.bind]
  rw [here, read]
  rfl

theorem isSkipped_of_word {c : Char} (h : isWordChar c = true) : isSkipped c = false := by
  have other (d : Char) (hd : isWordChar d = false) : (c == d) = false := isWordChar_beq h hd
  simp [isSkipped, isBlank, isBreak, byteOrderMark, other ' ' (by decide), other '\t' (by decide),
    other '\n' (by decide), other '\u2028' (by decide), other '\u2029' (by decide),
    other '#' (by decide), other '\ufeff' (by decide)]

theorem reads_key {v : Level} (h : At (x.unroll 0) v) (allowed : (x.unroll 0).keyAllowed = true)
    (shallow : v.indent ≤ 0) {c : Char} {w : List Char} (hc : c.isAlpha = true)
    (hw : ∀ d ∈ c :: w, isWordChar d = true) (short : w.length < 1024) {g : Mark}
    (gap : isGap g.char = true) (i l : Nat) : ∃ y, y.keyAllowed = false ∧ y.key = none ∧
      At y ((v.enter 0 .blockMapStart).emit [.value, .scalar (c :: w) .plain, .key]) ∧
      Reads x (onLine i l 0 (c :: w) ++ ⟨':', i + (c :: w).length, l, (c :: w).length⟩ :: g :: s) y
        (g :: s) := by
  let colon : Mark := ⟨':', i + (c :: w).length, l, (c :: w).length⟩
  let k : KeyPlace := ⟨v.indent == (0 : Nat), v.tokens.length, i, l, 0⟩
  let z : Lexer := ({ x.unroll 0 with key := some k, keyAllowed := false }).emit
    (.scalar (c :: w) .plain)
  have first := hw c List.mem_cons_self
  have scalar : Reads x (onLine i l 0 (c :: w) ++ colon :: g :: s) z (colon :: g :: s) := by
    have text := plainScalar_word (s := colon :: g :: s) hw ((x.unroll 0).indent + 1) [] i l 0
    rw [plainScalar_colon rfl (s := g :: s) gap, List.append_nil, List.reverse_reverse] at text
    have plain := (token?_letter (m := ⟨c, i, l, 0⟩) hc).trans
      (plain?_eq (h.saveKey? allowed ⟨c, i, l, 0⟩ _) h.outerKeys text)
    exact reads_token (isSkipped_of_word first) (isWordChar_ne first (by decide)) plain (by simp)
  obtain ⟨y, value, allowed', key, at'⟩ := value?_key (x := z) (v := v) (k := k)
    (t := .scalar (c :: w) .plain) (m := colon) (congrArg (_ :: ·) h.tokens) h.indent h.outer
    h.outerKeys rfl rfl (by
      simp only [isNear, beq_self_eq_true, Bool.true_and, decide_eq_true_eq, k, colon,
        List.length_cons]
      omega)
  refine ⟨y, allowed', key, at', scalar.trans (reads_token ?_ ?_ ?_ (by simp))⟩
  · exact show isSkipped ':' = false by decide
  · exact show ':' ≠ endChar by decide
  · have level : z.unroll colon.column = z := unroll_of_le (by
      have := h.indent
      change (x.unroll 0).indent ≤ _
      omega)
    rw [level, token?_colon rfl (s := g :: s) gap, value]
    rfl

theorem reads_plain {v : Level} (h : At x v) (allowed : x.keyAllowed = false) (indent : v.indent = 0)
    {c : Char} {w : List Char} (hc : c.isAlpha = true) (hw : ∀ d ∈ c :: w, isWordChar d = true)
    (i l n : Nat) {e f : Mark} (he : e.char = '\n') (column : f.column = 0)
    (blank : isBlank f.char = false) (break' : isBreak f.char = false) : ∃ y,
      y.keyAllowed = true ∧ At y (v.emit [.scalar (c :: w) .plain]) ∧
      Reads x (onLine i l n (c :: w) ++ e :: f :: s) y (f :: s) := by
  let y : Lexer := { x with keyAllowed := true }.emit (.scalar (c :: w) .plain)
  have first := hw c List.mem_cons_self
  have level : x.unroll n = x := unroll_of_le (by rw [h.indent, indent]; omega)
  have saved : x.saveKey? (onLine i l n (c :: w) ++ e :: f :: s) = some x := by
    unfold saveKey?
    rw [if_neg (by simp [allowed])]
  have text := plainScalar_word (s := e :: f :: s) hw (x.indent + 1) [] i l n
  rw [plainScalar_break he blank break' (by rw [h.indent, indent, column]; omega),
    List.append_nil, List.reverse_reverse] at text
  have plain : (x.unroll n).token? ⟨c, i, l, n⟩ (onLine (i + 1) l (n + 1) w ++ e :: f :: s) =
      some (y, f :: s) := by
    rw [level]
    exact (token?_letter (m := ⟨c, i, l, n⟩) hc).trans (plain?_eq saved h.outerKeys text)
  exact ⟨y, rfl, ⟨congrArg (_ :: ·) h.tokens, h.indent, h.outer, h.outerKeys, h.key⟩,
    reads_token (isSkipped_of_word first) (isWordChar_ne first (by decide)) plain
      (by simp; omega)⟩

theorem reads_dash {v : Level} (h : At x v) (allowed : x.keyAllowed = true)
    (hm : m.char = '-') (deep : v.indent ≤ m.column) (gap : isGap (peek s) = true) : ∃ y,
      y.keyAllowed = true ∧ At y ((v.enter m.column .blockListStart).emit [.blockEntry]) ∧
      Reads x (m :: s) y s := by
  let y : Lexer := { x.roll m.column x.tokens.length .blockListStart with
    key := none, keyAllowed := true }.emit .blockEntry
  have level : x.unroll m.column = x := unroll_of_le (by rw [h.indent]; exact deep)
  have rolled := h.roll m.column .blockListStart
  have entry : x.entryAt? m = some y := by
    rw [entryAt?, h.inFlow, if_neg (by simp), if_pos allowed, rolled.dropKey?]
    rfl
  refine ⟨y, rfl, ⟨congrArg (_ :: ·) rolled.tokens, rolled.indent, rolled.outer, rolled.outerKeys,
    fun k hk => by cases hk⟩, reads_token ?_ ?_ ?_ (Nat.le_refl _)⟩
  · rw [hm]
    decide
  · rw [hm]
    decide
  · rw [level, token?_dash hm gap, entry]
    rfl

theorem reads_quoted {v : Level} (h : At x v) (allowed : x.keyAllowed = true) {w : List Char}
    (hw : ∀ c ∈ w, isVerbatim c = true) (i l n : Nat) (deep : v.indent < n) {q : Mark}
    (hq : q.char = '"') : ∃ y, At y (v.emit [.scalar w .quoted]) ∧
      Reads x (⟨'"', i, l, n⟩ :: (onLine (i + 1) l (n + 1) w ++ q :: s)) y s := by
  let y : Lexer := { x with
    key := some ⟨v.indent == n, v.tokens.length, i, l, n⟩, keyAllowed := false }.emit
    (.scalar w .quoted)
  have level : x.unroll n = x := unroll_of_le (by rw [h.indent]; omega)
  have read := quotedScalar_verbatim (s := s) hw [] [] (i + 1) l (n := n + 1) (by omega) hq
  have quoted : x.quoted? false (⟨'"', i, l, n⟩ :: (onLine (i + 1) l (n + 1) w ++ q :: s)) =
      some (y, s) := by
    unfold quoted? content?
    rw [h.saveKey? allowed, List.tail_cons, show Gap.empty = ⟨[], false, [], []⟩ from rfl, read]
    rfl
  have later : ∀ k ∈ y.key, k.required = false := by
    intro k hk
    obtain rfl := Option.some.inj hk
    simp only [beq_eq_false_iff_ne]
    omega
  refine ⟨y, ⟨congrArg (_ :: ·) h.tokens, h.indent, h.outer, h.outerKeys, later⟩,
    reads_token ?_ ?_ ?_ (by simp; omega)⟩
  · exact show isSkipped '"' = false by decide
  · exact show '"' ≠ endChar by decide
  · rw [level, token?_quote rfl, quoted]

theorem reads_braces {v : Level} (h : At x v) (allowed : x.keyAllowed = false) {n : Mark}
    (hm : m.char = '\x7b') (hn : n.char = '\x7d') (deep : v.indent ≤ m.column)
    (key : x.key = none) : ∃ y, At y (v.emit [.flowMapEnd, .flowMapStart]) ∧
      Reads x (m :: n :: s) y s := by
  let y : Lexer := { x with key := none, outerKeys := [none], keyAllowed := true }.emit .flowMapStart
  let z : Lexer := { x with
    key := none, keyAllowed := false, tokens := .flowMapEnd :: .flowMapStart :: x.tokens }
  have level : x.unroll m.column = x := unroll_of_le (by rw [h.indent]; exact deep)
  have opened : (x.unroll m.column).token? m (n :: s) = some (y, n :: s) := by
    have saved : x.saveKey? (m :: n :: s) = some x := by
      unfold saveKey?
      rw [if_neg (by simp [allowed])]
    rw [level, token?_open hm, open?, saved]
    simp only [Option.map_some, key, h.outerKeys]
    rfl
  have closed : (y.unroll n.column).token? n s = some (z, s) := by
    have flow : y.unroll n.column = y := rfl
    rw [flow, token?_close hn, close?]
    exact congrArg (fun ks => some ({ z with outerKeys := ks }, s)) h.outerKeys.symm
  refine ⟨z, ⟨?_, h.indent, h.outer, h.outerKeys, fun k hk => by cases hk⟩, ?_⟩
  · simp [z, Level.emit, h.tokens]
  · refine (reads_token (y := y) ?_ ?_ opened (Nat.le_refl _)).trans
      (reads_token ?_ ?_ closed (Nat.le_refl _))
    · rw [hm]; decide
    · rw [hm]; decide
    · rw [hn]; decide
    · rw [hn]; decide

/-- At the end all blocks end. -/
theorem run?_end {v : Level} (h : At x v) (he : m.char = endChar) (k : Nat) :
    run? (k + 1) x (m :: s) = some (.streamEnd :: (v.unroll (-1)).tokens).reverse := by
  have ended (allowed : Bool) : At ({ x with keyAllowed := allowed }) v :=
    ⟨h.tokens, h.indent, h.outer, h.outerKeys, h.key⟩
  rw [run?, skip_stop (by rw [he]; decide)]
  simp only [he, if_true, reset?, ((ended x.keyAllowed).unroll (-1)).dropKey?, Option.map_some,
    ((ended x.keyAllowed).unroll (-1)).tokens]

end Lexer

end StyleExports.Yaml
