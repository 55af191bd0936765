import StyleExports.Proofs.EsModule.Parted
import StyleExports.Proofs.Text.Place

namespace StyleExports.EsModule

open Text

def statementPlaces : Nat → EsModule → List Nat
  | _, [] => []
  | n, i :: m =>
    if i.kind = .comment then statementPlaces (n + size i.text + 1) m
    else n :: statementPlaces (n + size i.text + 1) m

/-- Whether every statement is read from the text of a module as an item of its own. -/
def Separate (m : EsModule) : Prop :=
  ∃ r, ofText? (toText m) = .ok r ∧
    (r.filter fun i => i.kind ≠ .comment).map (·.start) = statementPlaces 0 m

namespace Scan

/-- Where the automaton stands after a text in which no statement ends. -/
def run? (st : Scan) : List Char → Option Scan
  | [] => some st
  | c :: s =>
    match st.step c s with
    | .ok (.more u) => u.run? s
    | _ => none

theorem Reads.run?_eq {st u : Scan} {s : List Char} (h : Reads st s [] u) : st.run? s = some u := by
  induction s generalizing st with
  | nil =>
    cases h
    rfl
  | cons c s ih =>
    cases h with
    | cons hs hr =>
      rw [List.append_nil] at hs
      rw [run?, hs]
      exact ih hr

theorem reads_of_run? {st u : Scan} {s : List Char} (h : st.run? s = some u) : Reads st s [] u := by
  induction s generalizing st with
  | nil =>
    cases h
    exact .nil
  | cons c s ih =>
    unfold run? at h
    split at h
    · rename_i v hv
      exact .cons (by rwa [List.append_nil]) (ih h)
    · simp at h

end Scan

namespace Item

/-- Whether a line feed after an item ends it before a keyword. -/
def breaks (i : Item) : Bool := (Scan.start.run? i.text).any Scan.breaks

/-- Whether an item is a line of its own, or a statement that no semicolon closes. -/
def IsRead (i : Item) : Prop :=
  IsLine i.text (i.kind == .comment) ∨ i.kind ≠ .comment ∧ ∃ v, IsOpen i.text v

end Item

/-- Whether a keyword guards the next statement, if there is one, from a statement before it that a
line feed ends before keywords as `v` says. -/
def isGuardedFrom (v : Bool) (m : EsModule) : Bool :=
  (m.find? fun i => i.kind ≠ .comment).all fun i => v && startsStatement i.text

/-- Whether every statement that no semicolon closes is complete and stands in front of a keyword, or
stands last. -/
def isGuarded : EsModule → Bool
  | [] => true
  | i :: m => (i.isTerminated || isGuardedFrom i.breaks m) && isGuarded m

section

variable {i : Item} {m : EsModule} {n : Nat} {s t : List Char} {v : Bool} {ks : List Chunk}

theorem IsLine.terminated {b : Bool} (h : IsLine s b) : (b || Scan.start.closes s) = true := by
  cases h with
  | comment => rfl
  | statement hs hc h => exact h

theorem isTerminated_of_isLine (h : IsLine i.text (i.kind == .comment)) : i.isTerminated = true :=
  h.terminated

theorem not_isTerminated_of_isOpen (hk : i.kind ≠ .comment) (h : IsOpen i.text v) :
    i.isTerminated = false ∧ i.breaks = v := by
  obtain ⟨u, hu, -, hb⟩ := h.rests
  constructor
  · have closed := hu.closes
    rw [List.append_nil] at closed
    rw [Item.isTerminated, closed, beq_eq_false_iff_ne.mpr hk]
    rfl
  · rw [Item.breaks, hu.run?_eq]
    exact hb

theorem start_le_of_mem_chunks (h : chunks n s = .ok ks) : ∀ k ∈ ks, n ≤ k.start := by
  induction h using chunks_induction with
  | nil => simp
  | skip _ _ _ ih => exact fun k hk => (Nat.le_succ _).trans (ih k hk)
  | comment _ _ _ _ ih =>
    exact List.forall_mem_cons.mpr ⟨Nat.le_refl _, fun k hk => (Nat.le_add_right ..).trans (ih k hk)⟩
  | statement _ _ _ _ _ ih =>
    exact List.forall_mem_cons.mpr ⟨Nat.le_refl _, fun k hk => (Nat.le_add_right ..).trans (ih k hk)⟩

def Chunk.statementStarts (ks : List Chunk) : List Nat :=
  (ks.filter fun k => !k.isComment).map Chunk.start

theorem Chunk.statementStarts_cons (k : Chunk) (ks : List Chunk) :
    statementStarts (k :: ks) =
      if k.isComment then statementStarts ks else k.start :: statementStarts ks := by
  unfold statementStarts
  cases hk : k.isComment <;> simp [hk]

theorem IsOpen.goes_on {c : Char} (h : IsOpen s v) (hc : ¬(isSpace c ∨ c = ';'))
    (ht : ¬(v = true ∧ startsStatement (c :: t) = true)) (hk : chunks n (s ++ '\n' :: c :: t) = .ok ks) :
    ∃ f b js, chunks (n + size (s ++ '\n' :: c :: f)) b = .ok js ∧
      ks = .trimmed n (s ++ '\n' :: c :: f) false :: js := by
  obtain ⟨u, hu, hr, rfl⟩ := h.reads (c :: t)
  obtain ⟨w, hw, -⟩ := Scan.step_newline_goes_on hr ht
  have none := h.comment?_append (c :: t)
  obtain ⟨d, x, rfl, hd, -⟩ := h.begins
  rw [List.cons_append] at hk none
  obtain ⟨a, b, js, hjs, -, hab, hk⟩ := exists_of_chunks hd hk
  rcases hk with ⟨hk, -⟩ | ⟨-, hs, rfl⟩
  · simp [none] at hk
  rw [← List.cons_append] at hs
  obtain ⟨e, rfl, he⟩ := hu.exists_statement hs
  -- The line feed is read, and the character after it, which is none.
  obtain ⟨f, rfl⟩ : ∃ f, e = '\n' :: c :: f := by
    rcases Scan.statement_cons.mp he with ⟨y, f, hy, hf, rfl⟩ | ⟨hy, -⟩ | ⟨hy, -⟩
    · rw [hw] at hy
      cases hy
      have hfb := Scan.statement_append hf
      cases f with
      | nil =>
        rcases Scan.statement_cons.mp hf with ⟨_, _, -, -, hn⟩ | ⟨hy, -⟩ | ⟨-, hn, -⟩
        · simp at hn
        · obtain rfl := Scan.step_eq_endsBefore hy
          exact absurd (.inl (by decide)) hc
        · simp at hn
      | cons e f => exact ⟨f, by rw [(List.cons.inj hfb).1]⟩
    · rw [hw] at hy
      cases hy
    · rw [hw] at hy
      cases hy
  exact ⟨f, b, js, hjs, rfl⟩

theorem IsOpen.joined {c : Char} (h : IsOpen s v) (hc : ¬(isSpace c ∨ c = ';'))
    (ht : ¬(v = true ∧ startsStatement (c :: t) = true)) (hk : chunks n (s ++ '\n' :: c :: t) = .ok ks) :
    n + size s + 1 ∉ Chunk.statementStarts ks := by
  obtain ⟨f, b, js, hjs, rfl⟩ := h.goes_on hc ht hk
  have far : n + size s + 1 < n + size (s ++ '\n' :: c :: f) := by
    have behind : size ('\n' :: c :: f) = 1 + size (c :: f) := rfl
    have next := size_pos_of_ne_nil (List.cons_ne_nil c f)
    rw [size_append, behind]
    omega
  rw [Chunk.statementStarts, List.mem_map]
  rintro ⟨k, hk, hstart⟩
  rcases List.mem_cons.mp (List.mem_filter.mp hk).1 with rfl | hk
  · have here : (Chunk.trimmed n (s ++ '\n' :: c :: f) false).start = n := rfl
    rw [here] at hstart
    omega
  · have later := start_le_of_mem_chunks hjs k hk
    omega

theorem exists_head_of_isRead (h : i.IsRead ∧ i.kind ≠ .comment) :
    ∃ c t, i.text = c :: t ∧ ¬(isSpace c ∨ c = ';') := by
  obtain ⟨line | ⟨-, v, ho⟩, hk⟩ := h
  · rw [beq_eq_false_iff_ne.mpr hk] at line
    generalize i.text = w at line
    cases line with
    | statement hs => exact ⟨_, _, rfl, hs⟩
  · obtain ⟨c, t, ht, hc, -⟩ := ho.begins
    exact ⟨c, t, ht, hc⟩

/-- Whether the text of a module, from an offset on, is read as one statement for each of its own. -/
def ReadsSeparate (n : Nat) (s : List Char) (places : List Nat) : Prop :=
  ∃ ks, chunks n s = .ok ks ∧ Chunk.statementStarts ks = places

theorem readsSeparate_cons {ps : List Nat} {k : Chunk} {m' : Nat}
    (h : chunks n s = (chunks m' t).map (k :: ·)) :
    ReadsSeparate n s (if k.isComment then ps else k.start :: ps) ↔ ReadsSeparate m' t ps := by
  have same (ks : List Chunk) : Chunk.statementStarts (k :: ks) =
      (if k.isComment then ps else k.start :: ps) ↔ Chunk.statementStarts ks = ps := by
    rw [Chunk.statementStarts_cons]
    cases k.isComment <;> simp
  unfold ReadsSeparate
  rw [h]
  cases chunks m' t with
  | error e => simp [Except.map]
  | ok ks => simpa [Except.map] using same ks

/-- Keywords decide whether the text of a module, from any offset on, is read as its statements. -/
def ReadsGuarded (m : EsModule) : Prop :=
  ∀ n, ReadsSeparate n (toText m) (statementPlaces n m) ↔ m.isGuarded = true

/-- So do they where an open statement stands on a line before the module. -/
def ReadsGuardedBehind (m : EsModule) : Prop :=
  ∀ n s v, IsOpen s v →
    (ReadsSeparate n (s ++ '\n' :: toText m) (n :: statementPlaces (n + size s + 1) m) ↔
      (isGuardedFrom v m && m.isGuarded) = true)

theorem ReadsGuarded.cons (hi : i.IsRead) (whole : ReadsGuarded m) (behind : ReadsGuardedBehind m) :
    ReadsGuarded (i :: m) := by
  intro n
  rw [toText_cons, isGuarded]
  rcases hi with line | ⟨hk, v, ho⟩
  · rw [isTerminated_of_isLine line, Bool.true_or, Bool.true_and, ← whole (n + size i.text + 1),
      ← readsSeparate_cons (chunks_line line n _), statementPlaces]
    simp only [beq_iff_eq]
  · obtain ⟨hterm, hbreaks⟩ := not_isTerminated_of_isOpen hk ho
    rw [hterm, hbreaks, Bool.false_or, ← behind n i.text v ho, statementPlaces, if_neg hk]

/-- A comment behind an open statement is read with it, so the statement stays as open as it was. -/
theorem ReadsGuardedBehind.comment (hi : i.IsRead) (hk : i.kind = .comment)
    (behind : ReadsGuardedBehind m) : ReadsGuardedBehind (i :: m) := by
  intro n s v ho
  have line : IsLine i.text true := by
    rcases hi with line | ⟨hn, -⟩
    · rwa [beq_iff_eq.mpr hk] at line
    · exact absurd hk hn
  have next : isGuardedFrom v (i :: m) = isGuardedFrom v m := by
    simp [isGuardedFrom, hk]
  have terminated : i.isTerminated = true := isTerminated_of_isLine (beq_iff_eq.mpr hk ▸ line)
  have place : n + size (s ++ '\n' :: i.text) + 1 = n + size s + 1 + size i.text + 1 := by
    have feed : size ('\n' :: i.text) = 1 + size i.text := rfl
    rw [size_append, feed]
    omega
  have joined := behind n (s ++ '\n' :: i.text) v (ho.comment line)
  rw [place, List.append_assoc, List.cons_append, ← toText_cons] at joined
  rw [statementPlaces, if_pos hk, next, isGuarded, terminated, Bool.true_or, Bool.true_and]
  exact joined

theorem IsOpen.not_readsSeparate (ho : IsOpen s v) (hi : i.IsRead) (hk : i.kind ≠ .comment)
    (hv : ¬(v = true ∧ startsStatement (toText (i :: m)) = true)) :
    ¬ReadsSeparate n (s ++ '\n' :: toText (i :: m))
      (n :: statementPlaces (n + size s + 1) (i :: m)) := by
  rintro ⟨ks, hks, hstarts⟩
  obtain ⟨c, x, hx, hc⟩ := exists_head_of_isRead ⟨hi, hk⟩
  have head : toText (i :: m) = c :: (x ++ '\n' :: toText m) := by rw [toText_cons, hx]; rfl
  rw [head] at hv hks
  apply ho.joined hc hv hks
  rw [hstarts, statementPlaces, if_neg hk]
  exact List.mem_cons_of_mem _ List.mem_cons_self

theorem startsStatement_toText_cons (hi : i.IsRead) (hk : i.kind ≠ .comment) :
    startsStatement (toText (i :: m)) = startsStatement i.text := by
  obtain ⟨c, x, hx, hc⟩ := exists_head_of_isRead ⟨hi, hk⟩
  have space : isSpace c = false := by simpa using fun hb => hc (.inl hb)
  rw [toText_cons]
  exact startsStatement_append_of_head (by rw [hx]; exact List.mem_cons_self) space
    (not_isIdentChar_newline _)

/-- A statement behind an open one is for itself if it begins with a keyword where the first may end. -/
theorem ReadsGuardedBehind.statement (hi : i.IsRead) (hk : i.kind ≠ .comment)
    (first : ReadsGuarded (i :: m)) : ReadsGuardedBehind (i :: m) := by
  intro n s v ho
  have key : startsStatement (toText (i :: m)) = startsStatement i.text :=
    startsStatement_toText_cons hi hk
  have next : isGuardedFrom v (i :: m) = (v && startsStatement i.text) := by
    simp [isGuardedFrom, hk]
  rw [next, ← key]
  by_cases hv : v = true ∧ startsStatement (toText (i :: m)) = true
  · obtain ⟨rfl, hs⟩ := hv
    rw [hs, Bool.true_and, Bool.true_and, ← first (n + size s + 1)]
    exact readsSeparate_cons (ho.chunks_broken hs n)
  · have guard : (v && startsStatement (toText (i :: m))) = false := by
      rw [Bool.eq_false_iff, ne_eq, Bool.and_eq_true]
      exact hv
    rw [guard, Bool.false_and]
    exact iff_of_false (ho.not_readsSeparate hi hk hv) Bool.false_ne_true

theorem readsGuarded (h : ∀ i ∈ m, i.IsRead) : ReadsGuarded m ∧ ReadsGuardedBehind m := by
  induction m with
  | nil =>
    refine ⟨fun n => ?_, fun n s v ho => ?_⟩
    · have read : chunks n (toText []) = .ok [] := by rw [toText, chunks]
      simp [ReadsSeparate, read, Chunk.statementStarts, statementPlaces, isGuarded]
    · have read := ho.chunks_last n
      simp [ReadsSeparate, toText, read, Chunk.statementStarts, statementPlaces, isGuardedFrom,
        isGuarded]
  | cons i m ih =>
    obtain ⟨hi, hm⟩ := List.forall_mem_cons.mp h
    obtain ⟨whole, behind⟩ := ih hm
    have first : ReadsGuarded (i :: m) := whole.cons hi behind
    by_cases hk : i.kind = .comment
    · exact ⟨first, behind.comment hi hk⟩
    · exact ⟨first, .statement hi hk first⟩

theorem separate_iff_chunks : m.Separate ↔ ReadsSeparate 0 (toText m) (statementPlaces 0 m) := by
  have starts (ks : List Chunk) : ((ks.map Item.ofChunk).filter fun i => i.kind ≠ .comment).map
      (·.start) = Chunk.statementStarts ks := by
    have same : ((fun i : Item => decide (i.kind ≠ .comment)) ∘ Item.ofChunk) =
        fun k : Chunk => !k.isComment := by
      funext k
      rw [← Item.kind_ofChunk_beq k]
      exact decide_not
    rw [List.filter_map, List.map_map, same]
    rfl
  unfold Separate ReadsSeparate
  constructor
  · rintro ⟨r, hr, hs⟩
    obtain ⟨ks, hc, rfl⟩ := ofText?_eq_ok.mp hr
    exact ⟨ks, hc, (starts ks).symm.trans hs⟩
  · rintro ⟨ks, hc, hs⟩
    exact ⟨_, ofText?_eq_ok.mpr ⟨ks, hc, rfl⟩, (starts ks).trans hs⟩

/-- The statements of a module whose items are lines or open are read from its text one by one, if and
only if keywords guard them. -/
theorem separate_iff_isGuarded (h : ∀ i ∈ m, i.IsRead) : m.Separate ↔ m.isGuarded = true :=
  separate_iff_chunks.trans ((readsGuarded h).1 0)

end

end StyleExports.EsModule
