import StyleExports.Proofs.Yaml.Lines

namespace StyleExports.Yaml

/-- What a key of a block map is given. -/
inductive Content where
  | plain (text : List Char)
  | list (items : List (List Char))
  | emptyMap
  deriving DecidableEq, Repr

/-- An entry of a block map, with comments in lines of their own in front of it. -/
structure Entry where
  remarks : List (List Char)
  name : List Char
  content : Content
  deriving DecidableEq, Repr

/-- A word that may be a key or a plain value. -/
def isWord (w : List Char) : Bool :=
  w.head?.any Char.isAlpha && w.all isWordChar && w.length ≤ 1024

namespace Content

def item (s : List Char) : List Char := ' ' :: ' ' :: '-' :: ' ' :: '"' :: (s ++ ['"', '\n'])

def itemTokens (s : List Char) : List Token := [.blockEntry, .scalar s .quoted]

def text : Content → List Char
  | .plain t => ':' :: ' ' :: (t ++ ['\n'])
  | .list items => ':' :: '\n' :: items.flatMap item
  | .emptyMap => [':', ' ', '\x7b', '\x7d', '\n']

def tokens : Content → List Token
  | .plain t => [.scalar t .plain]
  | .list items => .blockListStart :: (items.flatMap itemTokens ++ [.blockEnd])
  | .emptyMap => [.flowMapStart, .flowMapEnd]

/-- Whether the text is read back as what it was written for. -/
def isPlain : Content → Bool
  | .plain t => isWord t
  | .list items => !items.isEmpty && items.all (·.all isVerbatim)
  | .emptyMap => true

end Content

namespace Entry

def remark (r : List Char) : List Char := '#' :: (r ++ ['\n'])

def text (e : Entry) : List Char := e.remarks.flatMap remark ++ (e.name ++ e.content.text)

def tokens (e : Entry) : List Token := .key :: .scalar e.name .plain :: .value :: e.content.tokens

def isPlain (e : Entry) : Bool :=
  e.remarks.all (·.all fun c => isInline c && isAllowed c) && isWord e.name && e.content.isPlain

end Entry

theorem exists_of_isWord {w : List Char} (h : isWord w = true) : ∃ c u, w = c :: u ∧
    c.isAlpha = true ∧ (∀ d ∈ c :: u, isWordChar d = true) ∧ u.length < 1024 := by
  simp only [isWord, Bool.and_eq_true, decide_eq_true_eq, List.all_eq_true] at h
  obtain ⟨⟨first, all⟩, short⟩ := h
  cases w with
  | nil => simp at first
  | cons c u =>
    rw [List.length_cons] at short
    exact ⟨c, u, rfl, by simpa using first, all, by omega⟩

namespace Lexer

/-- The beginning of a line where an entry of the outermost map may stand, with the tokens in front
of it. -/
def Ready (x : Lexer) (ts : List Token) : Prop :=
  x.keyAllowed = true ∧ ∃ v : Level, At x v ∧ (v.unroll 0).indent ≤ 0 ∧
    (v.unroll 0).enter 0 .blockMapStart = ⟨ts, 0, [-1]⟩

def Between (x : Lexer) (ts : List Token) : Prop :=
  x.keyAllowed = true ∧ ∃ v : Level, At x v ∧ v.unroll 0 = ⟨ts, 0, [-1]⟩ ∧
    v.unroll (-1) = ⟨.blockEnd :: ts, -1, []⟩

theorem ready_start : start.Ready [.blockMapStart] :=
  ⟨rfl, ⟨[], -1, []⟩, ⟨rfl, rfl, rfl, rfl, by simp [start]⟩, by decide, rfl⟩

variable {x : Lexer} {ts : List Token}

theorem Between.ready (h : x.Between ts) : x.Ready ts := by
  obtain ⟨allowed, v, at', unrolled, -⟩ := h
  have entered : (v.unroll 0).enter 0 .blockMapStart = ⟨ts, 0, [-1]⟩ := by
    rw [unrolled]
    rfl
  exact ⟨allowed, v, at', Int.le_of_eq (congrArg Level.indent unrolled), entered⟩

/-- Behind an entry nothing is open but the map. -/
theorem between_of_at {v : Level} (h : At x v) (allowed : x.keyAllowed = true)
    (level : v = ⟨ts, 0, [-1]⟩) : x.Between ts := by
  subst level
  exact ⟨allowed, _, h, by simp [Level.unroll, unrollTo], by simp [Level.unroll, unrollTo]⟩

theorem reads_remark (allowed : x.keyAllowed = true) {r : List Char}
    (hr : ∀ c ∈ r, isInline c = true ∧ isAllowed c = true) (i l : Nat) (s : List Char) :
    ∃ j, Reads x (Mark.ofChars i l 0 (Entry.remark r ++ s)) x (Mark.ofChars j (l + 1) 0 s) := by
  have comment : ∀ m ∈ onLine (i + 1) l 1 r, isBreak m.char = false ∧ m.char ≠ endChar := by
    intro m hm
    obtain ⟨inline, proper⟩ := hr _ (char_mem_of_mem_onLine hm)
    simp only [isInline, Bool.not_eq_true', Bool.or_eq_false_iff] at inline
    refine ⟨inline.2, ?_⟩
    rintro he
    rw [he] at proper
    exact absurd proper (by decide)
  have same : { x with keyAllowed := true } = x := by rw [← allowed]
  rw [Entry.remark, List.cons_append, List.append_assoc, Mark.ofChars_cons (by decide),
    Mark.ofChars_append fun c hc => (hr c hc).1, List.singleton_append, Mark.ofChars_newline]
  have read := reads_of_skip (x := x) true (s := ⟨'#', i, l, 0⟩ :: (onLine (i + 1) l 1 r ++
    ⟨'\n', i + 1 + r.length, l, 1 + r.length⟩ :: Mark.ofChars (i + 1 + r.length + 1) (l + 1) 0 s))
    (t := Mark.ofChars (i + 1 + r.length + 1) (l + 1) 0 s) (by
      rw [skip]
      simp only [show isBreak '#' = false by decide, Bool.false_eq_true, if_false]
      rw [if_neg (by simp; decide), if_pos trivial, skip_comment comment, skip]
      simp [show isBreak '\n' = true by decide, allowed]) (by simp; omega)
  rw [same] at read
  exact ⟨_, read⟩

/-- What follows a line begins with no blank. -/
def Begins (s : List Char) : Prop := ∀ c ∈ s.head?, isInline c = true ∧ isBlank c = false

theorem Begins.exists_first {s : List Char} (h : Begins s) (i l : Nat) : ∃ f t,
    Mark.ofChars i l 0 s = f :: t ∧ f.column = 0 ∧ isBlank f.char = false ∧ isBreak f.char = false := by
  cases s with
  | nil => exact ⟨⟨endChar, i, l, 0⟩, [], rfl, rfl, rfl, rfl⟩
  | cons c s =>
    obtain ⟨inline, blank⟩ := h c rfl
    refine ⟨_, _, Mark.ofChars_cons inline i l 0 s, rfl, blank, ?_⟩
    simp only [isInline, Bool.not_eq_true', Bool.or_eq_false_iff] at inline
    exact inline.2

/-- A key, with what a value may follow. -/
theorem Ready.reads_name (h : x.Ready ts) {w : List Char} (hw : isWord w = true) {g : Char}
    (gap : isGap g = true) (i l : Nat) (s : List Char) (hs : ∀ j n, ∃ t, Mark.ofChars j l n (g :: s) =
      ⟨g, j, l, n⟩ :: t) : ∃ y j n, y.keyAllowed = false ∧ y.key = none ∧
      At y ⟨.value :: .scalar w .plain :: .key :: ts, 0, [-1]⟩ ∧
      Reads x (Mark.ofChars i l 0 (w ++ ':' :: g :: s)) y (Mark.ofChars j l n (g :: s)) := by
  obtain ⟨c, u, rfl, hc, all, short⟩ := exists_of_isWord hw
  obtain ⟨allowed, v, at', shallow, entered⟩ := h
  rw [Mark.ofChars_append fun d hd => isInline_of_word (all d hd), Mark.ofChars_cons (by decide)]
  obtain ⟨t, rest⟩ := hs (i + (c :: u).length + 1) (0 + (c :: u).length + 1)
  have allowed' : (x.unroll 0).keyAllowed = true := by rw [keyAllowed_unroll, allowed]
  obtain ⟨y, quiet, key, aty, reads⟩ := reads_key (at'.unroll 0) allowed' shallow hc all short
    (g := ⟨g, i + (c :: u).length + 1, l, 0 + (c :: u).length + 1⟩) (s := t) gap i l
  rw [entered] at aty
  refine ⟨y, i + (c :: u).length + 1, 0 + (c :: u).length + 1, quiet, key, aty, ?_⟩
  rw [rest, Nat.zero_add] at *
  exact reads

theorem reads_item {v : Level} (h : At x v) (allowed : x.keyAllowed = true) (shallow : v.indent ≤ 2)
    {w : List Char} (hw : ∀ c ∈ w, isVerbatim c = true) (i l : Nat) (s : List Char) : ∃ y j,
      y.keyAllowed = true ∧ At y (((v.enter 2 .blockListStart).emit [.blockEntry]).emit
        [.scalar w .quoted]) ∧
      Reads x (Mark.ofChars i l 0 (Content.item w ++ s)) y (Mark.ofChars j (l + 1) 0 s) := by
  have inline : ∀ c ∈ w, isInline c = true := by
    intro c hc
    have verbatim := hw c hc
    simp only [isVerbatim, Bool.and_eq_true] at verbatim
    exact verbatim.1.1.2
  have entered : (v.enter 2 .blockListStart).indent ≤ 2 := by
    unfold Level.enter
    split
    · exact Int.le_refl 2
    · exact shallow
  have text : Content.item w ++ s = ' ' :: ' ' :: '-' :: ' ' :: '"' :: (w ++ '"' :: '\n' :: s) := by
    simp [Content.item]
  rw [text]
  repeat rw [Mark.ofChars_cons (by decide)]
  rw [Mark.ofChars_append inline, Mark.ofChars_cons (by decide), Mark.ofChars_newline]
  let rest := Mark.ofChars (i + 1 + 1 + 1 + 1 + 1 + w.length + 1 + 1) (l + 1) 0 s
  let close : Mark := ⟨'"', i + 1 + 1 + 1 + 1 + 1 + w.length, l, 0 + 1 + 1 + 1 + 1 + 1 + w.length⟩
  let newline : Mark := ⟨'\n', close.index + 1, l, close.column + 1⟩
  let inner := onLine (i + 1 + 1 + 1 + 1 + 1) l (0 + 1 + 1 + 1 + 1 + 1) w ++ close :: newline :: rest
  obtain ⟨y, ally, aty, dash⟩ := reads_dash (m := ⟨'-', i + 1 + 1, l, 0 + 1 + 1⟩)
    (s := ⟨' ', i + 1 + 1 + 1, l, 0 + 1 + 1 + 1⟩ ::
      ⟨'"', i + 1 + 1 + 1 + 1, l, 0 + 1 + 1 + 1 + 1⟩ :: inner) h allowed rfl shallow
    (show isGap ' ' = true by decide)
  obtain ⟨z, atz, quoted⟩ := reads_quoted (s := newline :: rest) aty ally hw (i + 1 + 1 + 1 + 1) l
    (0 + 1 + 1 + 1 + 1) (Int.lt_of_le_of_lt entered (by decide)) (q := close) rfl
  have ended : Reads z (newline :: rest) { z with keyAllowed := true } rest :=
    reads_break atz.outerKeys (show isBreak '\n' = true by decide)
  exact ⟨{ z with keyAllowed := true }, i + 1 + 1 + 1 + 1 + 1 + w.length + 1 + 1, rfl,
    ⟨atz.tokens, atz.indent, atz.outer, atz.outerKeys, atz.key⟩, (reads_space rfl).trans <|
      (reads_space rfl).trans <| dash.trans <| (reads_space rfl).trans <| quoted.trans ended⟩

theorem reads_items {ts : List Token} {outer : List Int} (h : At x ⟨ts, 2, outer⟩)
    (allowed : x.keyAllowed = true) {items : List (List Char)}
    (hw : ∀ w ∈ items, ∀ c ∈ w, isVerbatim c = true) (i l : Nat) (s : List Char) : ∃ y j k,
      y.keyAllowed = true ∧ At y ⟨(items.flatMap Content.itemTokens).reverse ++ ts, 2, outer⟩ ∧
      Reads x (Mark.ofChars i l 0 (items.flatMap Content.item ++ s)) y (Mark.ofChars j k 0 s) := by
  induction items generalizing x ts i l with
  | nil => exact ⟨x, i, l, allowed, h, .refl _ _⟩
  | cons w items ih =>
    obtain ⟨y, j, allowed', at', first⟩ := reads_item h allowed (by simp) (hw w List.mem_cons_self) i l
      (items.flatMap Content.item ++ s)
    have level : ((⟨ts, 2, outer⟩ : Level).enter 2 .blockListStart).emit [.blockEntry] =
        ⟨.blockEntry :: ts, 2, outer⟩ := rfl
    rw [level] at at'
    obtain ⟨z, k, m, allowed'', at'', rest⟩ := ih at' allowed'
      (fun u hu => hw u (List.mem_cons_of_mem _ hu)) j (l + 1)
    refine ⟨z, k, m, allowed'', ?_, ?_⟩
    · simpa [Content.itemTokens] using at''
    · rw [List.flatMap_cons, List.append_assoc]
      exact first.trans rest

theorem reads_remarks (allowed : x.keyAllowed = true) {rs : List (List Char)}
    (hr : ∀ r ∈ rs, ∀ c ∈ r, isInline c = true ∧ isAllowed c = true) (i l : Nat) (s : List Char) :
    ∃ j k, Reads x (Mark.ofChars i l 0 (rs.flatMap Entry.remark ++ s)) x (Mark.ofChars j k 0 s) := by
  induction rs generalizing i l with
  | nil => exact ⟨i, l, .refl _ _⟩
  | cons r rs ih =>
    rw [List.flatMap_cons, List.append_assoc]
    obtain ⟨j, first⟩ := reads_remark allowed (hr r List.mem_cons_self) i l
      (rs.flatMap Entry.remark ++ s)
    obtain ⟨k, m, rest⟩ := ih (fun t ht => hr t (List.mem_cons_of_mem _ ht)) j (l + 1)
    exact ⟨k, m, first.trans rest⟩

theorem Ready.reads_value (h : x.Ready ts) {w t : List Char} (hw : isWord w = true)
    (ht : isWord t = true) {s : List Char} (hs : Begins s) (i l : Nat) : ∃ y j k,
      y.Between (.scalar t .plain :: .value :: .scalar w .plain :: .key :: ts) ∧
      Reads x (Mark.ofChars i l 0 (w ++ ':' :: ' ' :: (t ++ '\n' :: s))) y (Mark.ofChars j k 0 s) := by
  obtain ⟨y, j, n, quiet, -, aty, name⟩ := h.reads_name hw (show isGap ' ' = true by decide) i l
    (t ++ '\n' :: s) fun j n => ⟨_, Mark.ofChars_cons (by decide) j l n _⟩
  obtain ⟨c, u, rfl, hc, all, -⟩ := exists_of_isWord ht
  -- a plain value goes on over the break, up to the next line that is not indented
  obtain ⟨f, r, next, column, blank, break'⟩ := hs.exists_first (j + 1 + (c :: u).length + 1) (l + 1)
  obtain ⟨z, allowed, atz, value⟩ := reads_plain (s := r) aty quiet rfl hc all (j + 1) l (n + 1)
    (e := ⟨'\n', j + 1 + (c :: u).length, l, n + 1 + (c :: u).length⟩) rfl column blank break'
  rw [← next] at value
  have gap : Mark.ofChars j l n (' ' :: (c :: u ++ '\n' :: s)) = ⟨' ', j, l, n⟩ ::
      (onLine (j + 1) l (n + 1) (c :: u) ++
        ⟨'\n', j + 1 + (c :: u).length, l, n + 1 + (c :: u).length⟩ ::
        Mark.ofChars (j + 1 + (c :: u).length + 1) (l + 1) 0 s) := by
    rw [Mark.ofChars_cons (by decide), Mark.ofChars_append fun d hd => isInline_of_word (all d hd),
      Mark.ofChars_newline]
  rw [gap] at name
  exact ⟨z, j + 1 + (c :: u).length + 1, l + 1, between_of_at atz allowed rfl,
    name.trans <| (reads_space rfl).trans value⟩

theorem Ready.reads_list (h : x.Ready ts) {w : List Char} (hw : isWord w = true)
    {items : List (List Char)} (proper : items ≠ [])
    (hi : ∀ t ∈ items, ∀ c ∈ t, isVerbatim c = true) (s : List Char) (i l : Nat) : ∃ y j k,
      y.Between ((Content.list items).tokens.reverse ++ .value :: .scalar w .plain :: .key :: ts) ∧
      Reads x (Mark.ofChars i l 0 (w ++ ':' :: '\n' :: (items.flatMap Content.item ++ s))) y
        (Mark.ofChars j k 0 s) := by
  obtain ⟨t, items, rfl⟩ := List.exists_cons_of_ne_nil proper
  obtain ⟨y, j, n, -, -, aty, name⟩ := h.reads_name hw (show isGap '\n' = true by decide) i l
    ((t :: items).flatMap Content.item ++ s) fun j n => ⟨_, Mark.ofChars_newline j l n _⟩
  rw [Mark.ofChars_newline, List.flatMap_cons, List.append_assoc] at name
  have aty' : At { y with keyAllowed := true } ⟨.value :: .scalar w .plain :: .key :: ts, 0, [-1]⟩ :=
    ⟨aty.tokens, aty.indent, aty.outer, aty.outerKeys, aty.key⟩
  obtain ⟨z, k, allowed, atz, first⟩ := reads_item aty' rfl (show (0 : Int) ≤ 2 by decide)
    (hi t List.mem_cons_self) (j + 1) (l + 1) (items.flatMap Content.item ++ s)
  have begun : At z ⟨.scalar t .quoted :: .blockEntry :: .blockListStart :: .value ::
    .scalar w .plain :: .key :: ts, 2, [0, -1]⟩ := atz
  obtain ⟨u, m, p, allowed', atu, rest⟩ := reads_items begun allowed
    (fun t ht => hi t (List.mem_cons_of_mem _ ht)) k (l + 1 + 1) s
  rw [List.flatMap_cons, List.append_assoc]
  refine ⟨u, m, p, ⟨allowed', _, atu, ?_, ?_⟩, name.trans <|
    (reads_break aty.outerKeys (show isBreak '\n' = true by decide)).trans <| first.trans rest⟩
  all_goals simp [Level.unroll, unrollTo, Content.tokens, Content.itemTokens]

theorem Ready.reads_emptyMap (h : x.Ready ts) {w : List Char} (hw : isWord w = true) (s : List Char)
    (i l : Nat) : ∃ y j k,
      y.Between (.flowMapEnd :: .flowMapStart :: .value :: .scalar w .plain :: .key :: ts) ∧
      Reads x (Mark.ofChars i l 0 (w ++ ':' :: ' ' :: '\x7b' :: '\x7d' :: '\n' :: s)) y
        (Mark.ofChars j k 0 s) := by
  obtain ⟨y, j, n, quiet, key, aty, name⟩ := h.reads_name hw (show isGap ' ' = true by decide) i l
    ('\x7b' :: '\x7d' :: '\n' :: s) fun j n => ⟨_, Mark.ofChars_cons (by decide) j l n _⟩
  repeat rw [Mark.ofChars_cons (by decide)] at name
  rw [Mark.ofChars_newline] at name
  let rest := Mark.ofChars (j + 1 + 1 + 1 + 1) (l + 1) 0 s
  obtain ⟨z, atz, braces⟩ := reads_braces (m := ⟨'\x7b', j + 1, l, n + 1⟩)
    (n := ⟨'\x7d', j + 1 + 1, l, n + 1 + 1⟩) (s := ⟨'\n', j + 1 + 1 + 1, l, n + 1 + 1 + 1⟩ :: rest)
    aty quiet rfl rfl (by simp; omega) key
  have atz' : At { z with keyAllowed := true } ⟨.flowMapEnd :: .flowMapStart :: .value ::
      .scalar w .plain :: .key :: ts, 0, [-1]⟩ :=
    ⟨atz.tokens, atz.indent, atz.outer, atz.outerKeys, atz.key⟩
  exact ⟨{ z with keyAllowed := true }, j + 1 + 1 + 1 + 1, l + 1, between_of_at atz' rfl rfl,
    name.trans <| (reads_space rfl).trans <| braces.trans <|
      reads_break atz.outerKeys (show isBreak '\n' = true by decide)⟩

/-- An entry of the outermost map. -/
theorem Ready.reads_entry (h : x.Ready ts) {e : Entry} (he : e.isPlain = true) {s : List Char}
    (hs : Begins s) (i l : Nat) : ∃ y j k, y.Between (e.tokens.reverse ++ ts) ∧
      Reads x (Mark.ofChars i l 0 (e.text ++ s)) y (Mark.ofChars j k 0 s) := by
  obtain ⟨remarks, w, content⟩ := e
  simp only [Entry.isPlain, Bool.and_eq_true, List.all_eq_true] at he
  obtain ⟨⟨hr, hw⟩, hc⟩ := he
  obtain ⟨j, k, front⟩ := reads_remarks h.1 hr i l (w ++ content.text ++ s)
  have text : (⟨remarks, w, content⟩ : Entry).text ++ s =
      remarks.flatMap Entry.remark ++ (w ++ content.text ++ s) := by
    simp [Entry.text]
  rw [text]
  cases content with
  | plain t =>
    obtain ⟨y, m, n, between, value⟩ := h.reads_value hw hc hs j k
    refine ⟨y, m, n, by simpa [Entry.tokens, Content.tokens] using between, front.trans ?_⟩
    simpa [Content.text] using value
  | list items =>
    simp only [Content.isPlain, Bool.and_eq_true, Bool.not_eq_true', List.isEmpty_eq_false_iff,
      List.all_eq_true] at hc
    obtain ⟨y, m, n, between, value⟩ := h.reads_list hw hc.1 hc.2 s j k
    refine ⟨y, m, n, by simpa [Entry.tokens] using between, front.trans ?_⟩
    simpa [Content.text] using value
  | emptyMap =>
    obtain ⟨y, m, n, between, value⟩ := h.reads_emptyMap hw s j k
    refine ⟨y, m, n, by simpa [Entry.tokens, Content.tokens] using between, front.trans ?_⟩
    simpa [Content.text] using value

theorem begins_entries {es : List Entry} (h : ∀ e ∈ es, e.isPlain = true) :
    Begins (es.flatMap Entry.text) := by
  intro c hc
  cases es with
  | nil => cases hc
  | cons e es =>
    have plain := h e List.mem_cons_self
    simp only [Entry.isPlain, Bool.and_eq_true] at plain
    obtain ⟨d, u, hn, letter, word, -⟩ := exists_of_isWord plain.1.2
    rw [List.flatMap_cons, Entry.text, hn] at hc
    cases hr : e.remarks with
    | nil =>
      rw [hr] at hc
      obtain rfl : d = c := by simpa using hc
      have inline := isInline_of_word (word d List.mem_cons_self)
      have skipped := isSkipped_of_word (word d List.mem_cons_self)
      simp only [isSkipped, Bool.or_eq_false_iff] at skipped
      exact ⟨inline, skipped.1.1.1⟩
    | cons r rs =>
      rw [hr] at hc
      obtain rfl : '#' = c := by simpa [Entry.remark] using hc
      decide

/-- The entries of the outermost map, up to the end of the text. -/
theorem Ready.reads_entries (h : x.Ready ts) {es : List Entry} (proper : es ≠ [])
    (plain : ∀ e ∈ es, e.isPlain = true) (i l : Nat) : ∃ y j k,
      y.Between ((es.flatMap Entry.tokens).reverse ++ ts) ∧
      Reads x (Mark.ofChars i l 0 (es.flatMap Entry.text)) y (Mark.ofChars j k 0 []) := by
  -- behind an entry only the map is open, so the next one begins like the first
  induction es generalizing x ts i l with
  | nil => exact absurd rfl proper
  | cons e es ih =>
    have rest := fun f hf => plain f (List.mem_cons_of_mem _ hf)
    obtain ⟨y, j, k, between, first⟩ := h.reads_entry (plain e List.mem_cons_self)
      (begins_entries rest) i l
    rw [← List.flatMap_cons] at first
    by_cases last : es = []
    · subst last
      exact ⟨y, j, k, by simpa using between, first⟩
    · obtain ⟨z, m, n, between', later⟩ := ih between.ready last rest j k
      refine ⟨z, m, n, ?_, first.trans later⟩
      rwa [List.flatMap_cons, List.reverse_append, List.append_assoc]

end Lexer

theorem isAllowed_of_word {c : Char} (h : isWordChar c = true) : isAllowed c = true := by
  have printable : 0x20 ≤ c.toNat ∧ c.toNat ≤ 0x7e := by
    have alphanum : c.isAlphanum = (decide (65 ≤ c.val ∧ c.val ≤ 90) ||
        decide (97 ≤ c.val) && decide (c.val ≤ 122) || decide (48 ≤ c.val) && decide (c.val ≤ 57)) :=
      rfl
    simp only [isWordChar, alphanum, Bool.or_eq_true, Bool.and_eq_true, decide_eq_true_eq,
      beq_iff_eq] at h
    have between {a b : UInt32} (lo : a ≤ c.val) (hi : c.val ≤ b) (ha : 0x20 ≤ a.toNat)
        (hb : b.toNat ≤ 0x7e) : 0x20 ≤ c.toNat ∧ c.toNat ≤ 0x7e :=
      ⟨Nat.le_trans ha (UInt32.le_iff_toNat_le.mp lo),
        Nat.le_trans (UInt32.le_iff_toNat_le.mp hi) hb⟩
    rcases h with ((((⟨lo, hi⟩ | ⟨lo, hi⟩) | ⟨lo, hi⟩) | rfl) | rfl)
    · exact between lo hi (by decide) (by decide)
    · exact between lo hi (by decide) (by decide)
    · exact between lo hi (by decide) (by decide)
    · decide
    · decide
  simp [isAllowed, printable.1, printable.2]

theorem all_isAllowed_of_isWord {w : List Char} (h : isWord w = true) : w.all isAllowed = true := by
  obtain ⟨c, u, rfl, -, word, -⟩ := exists_of_isWord h
  exact List.all_eq_true.mpr fun d hd => isAllowed_of_word (word d hd)

theorem Content.all_isAllowed {c : Content} (h : c.isPlain = true) : c.text.all isAllowed = true := by
  cases c with
  | plain t =>
    have word := all_isAllowed_of_isWord h
    simp [text, word, show isAllowed ':' = true by decide, show isAllowed ' ' = true by decide,
      show isAllowed '\n' = true by decide]
  | list items =>
    simp only [isPlain, Bool.and_eq_true, List.all_eq_true, isVerbatim] at h
    simp only [text, item, List.all_cons, List.all_flatMap, List.all_append, List.all_eq_true,
      Bool.and_eq_true]
    exact ⟨by decide, by decide, fun s hs => ⟨by decide, by decide, by decide, by decide, by decide,
      fun c hc => (h.2 s hs c hc).1.1.1, by decide, by decide, List.forall_mem_nil _⟩⟩
  | emptyMap => decide

theorem Entry.all_isAllowed (e : Entry) (h : e.isPlain = true) : e.text.all isAllowed = true := by
  simp only [isPlain, Bool.and_eq_true, List.all_eq_true] at h
  obtain ⟨⟨remarks, name⟩, content⟩ := h
  simp only [text, List.all_append, all_isAllowed_of_isWord name, Content.all_isAllowed content,
    Bool.and_true, List.all_flatMap]
  refine List.all_eq_true.mpr fun r hr => ?_
  simp only [remark, List.all_cons, List.all_append, List.all_eq_true, Bool.and_eq_true]
  exact ⟨by decide, fun c hc => (remarks r hr c hc).2, by decide, List.forall_mem_nil _⟩

theorem tokens?_entries {es : List Entry} (proper : es ≠ []) (plain : ∀ e ∈ es, e.isPlain = true) :
    tokens? (es.flatMap Entry.text) =
      some (.blockMapStart :: (es.flatMap Entry.tokens ++ [.blockEnd, .streamEnd])) := by
  have allowed : (es.flatMap Entry.text).all isAllowed = true := by
    rw [List.all_flatMap, List.all_eq_true]
    exact fun e he => e.all_isAllowed (plain e he)
  obtain ⟨y, j, k, ⟨-, v, aty, -, unrolled⟩, n, length, reads⟩ :=
    Lexer.ready_start.reads_entries proper plain 0 0
  have left : (Mark.ofChars j k 0 []).length = 1 := rfl
  obtain ⟨m, hm⟩ : ∃ m, (Mark.ofChars 0 0 0 (es.flatMap Entry.text)).length = n + (m + 1) :=
    ⟨(Mark.ofChars 0 0 0 (es.flatMap Entry.text)).length - n - 1, by omega⟩
  simp only [tokens?, marks?, allowed, if_true, bind, Option.bind]
  rw [hm, reads, Mark.ofChars, Lexer.run?_end aty rfl, unrolled]
  simp

end StyleExports.Yaml
