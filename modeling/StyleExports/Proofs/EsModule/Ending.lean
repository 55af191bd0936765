import StyleExports.Proofs.EsModule.Declarators
import StyleExports.Proofs.EsModule.Ranges
import StyleExports.Proofs.EsModule.Removal
import StyleExports.Proofs.Text.Separator

namespace StyleExports.EsModule

open Text

/-- The tokens after which nothing more has to follow in a statement. -/
inductive Ending where
  /-- An identifier, or a number that ends with a digit or a letter. -/
  | word
  | point
  | string
  | template
  | bracket
  | regex
  deriving DecidableEq, Repr

def Ending.isComplete : Ending → Bool
  | .point => false
  | .regex => false
  | _ => true

/-- Whether a text, read backwards, ends with an integer, so that a point behind it belongs to a
number. -/
def endsInInteger (before : List Char) : Bool :=
  let digits := before.takeWhile isWordChar
  !digits.isEmpty && digits.all (fun c => c.isDigit || c == '_') &&
    (before.dropWhile isWordChar).head? != some '.'

namespace Scan

/-- The token that a statement read so far ends with: outside of literals and comments the last
character tells which. -/
def ending? (st : Scan) : Option Ending :=
  match st.mode, st.before with
  | .flags, _ => some .regex
  | .plain, c :: s =>
    if isWordChar c then some .word
    else if c = '"' ∨ c = '\'' then some .string
    else if c = '`' then some .template
    else if c = ')' ∨ c = ']' ∨ c = '}' then some .bracket
    else if c = '.' ∧ endsInInteger s then some .point
    else none
  | _, _ => none

/-- What was read last tells whether the line is complete. -/
structure Marked (st : Scan) : Prop where
  /-- Outside of everything the last character does, but a blank and the end of a comment do not
  count. -/
  plain : st.mode = .plain → ∀ c ∈ st.before.head?, isSpace c = false → c ≠ '/' →
    EsModule.isComplete st.last = EsModule.isComplete (some c)
  /-- A literal goes by the quotation mark that opened it. -/
  literal : ∀ c l, st.mode = .literal c l → EsModule.isComplete (some c) = true
  /-- A regular expression goes by its slash. -/
  flags : st.mode = .flags →
    st.last = some '/' ∧ ∃ c ∈ st.before.head?, isSpace c = false ∧ c ≠ ';'

section

variable {st u : Scan} {c : Char} {s t r : List Char} {e : Ending}

theorem marked_start : start.Marked := ⟨by simp [start], by simp [start], by simp [start]⟩

theorem marked_of_mode (hp : st.mode ≠ .plain) (hl : ∀ c l, st.mode ≠ .literal c l)
    (hf : st.mode ≠ .flags) : st.Marked :=
  ⟨fun h => absurd h hp, fun c l h => absurd h (hl c l), fun h => absurd h hf⟩

theorem marked_of_plain (hm : st.mode = .plain) (h : ∀ c ∈ st.before.head?, isSpace c = false →
    c ≠ '/' → EsModule.isComplete st.last = EsModule.isComplete (some c)) : st.Marked := by
  refine ⟨fun _ => h, fun c l hl => ?_, fun hf => ?_⟩
  · simp [hm] at hl
  · simp [hm] at hf

theorem marked_of_literal {l : Literal} (hm : st.mode = .literal c l)
    (h : EsModule.isComplete (some c) = true) : st.Marked := by
  refine ⟨fun hp => ?_, fun d k hk => ?_, fun hf => ?_⟩
  · simp [hm] at hp
  · rw [hm] at hk
    rwa [← (Mode.literal.inj hk).1]
  · simp [hm] at hf

theorem marked_of_flags (hm : st.mode = .flags) (hl : st.last = some '/')
    (hh : ∃ c ∈ st.before.head?, isSpace c = false ∧ c ≠ ';') : st.Marked := by
  refine ⟨fun hp => ?_, fun c l hl => ?_, fun _ => ⟨hl, hh⟩⟩
  · simp [hm] at hp
  · simp [hm] at hl

theorem marked_pushLast (st : Scan) (c : Char) (brackets : List Char) :
    Marked { st.pushLast c with brackets := brackets } := by
  refine marked_of_plain rfl fun d hd _ _ => ?_
  rw [← Option.some.inj hd]
  rfl

theorem plainStep_marked (h : st.plainStep c r = .ok (.more u)) : u.Marked := by
  have quote {l : Literal} (hl : Literal.open? c = some l) :
      EsModule.isComplete (some c) = true := by
    unfold Literal.open? at hl
    split at hl
    · rename_i hc
      rcases hc with rfl | rfl <;> decide
    split at hl
    · rename_i hc
      rw [hc]
      decide
    · simp at hl
  unfold plainStep at h
  split at h
  · rename_i l hl
    cases h
    exact marked_of_literal rfl (quote hl)
  split at h
  · cases h
    exact marked_of_mode (by simp [begin]) (by simp [begin]) (by simp [begin])
  split at h
  · cases h
    exact marked_pushLast ..
  split at h
  · split at h
    · split at h
      · cases h
        exact marked_pushLast ..
      · simp at h
    · simp at h
  split at h
  · simp at h
  split at h
  · simp at h
  split at h
  · rename_i hspace
    cases h
    refine marked_of_plain rfl fun d hd hs => ?_
    rw [← Option.some.inj hd, hspace] at hs
    simp at hs
  · cases h
    exact marked_pushLast ..

theorem regexStep_marked {inClass esc : Bool} (h : st.regexStep inClass esc c = .ok (.more u)) :
    u.Marked := by
  have inside {v : Scan} {a b : Bool} (hv : v.mode = .regex a b) : v.Marked :=
    marked_of_mode (by simp [hv]) (by simp [hv]) (by simp [hv])
  simp only [regexStep] at h
  split at h
  · cases h
    exact inside rfl
  split at h
  · cases h
    exact inside rfl
  split at h
  · simp at h
  split at h
  · cases h
    exact inside rfl
  split at h
  · cases h
    exact inside rfl
  split at h
  · rename_i hc
    cases h
    refine marked_of_flags rfl (congrArg some hc.1) ⟨c, rfl, ?_⟩
    rw [hc.1]
    decide
  · cases h
    exact inside rfl

theorem step_marked (hs : st.Sound) (hst : st.Marked) (h : st.step c r = .ok (.more u)) :
    u.Marked := by
  unfold step at h
  split at h
  case h_1 => exact plainStep_marked h
  case h_2 =>
    split at h
    · cases h
      exact marked_of_mode (by simp) (by simp) (by simp)
    split at h
    · cases h
      exact marked_of_mode (by simp) (by simp) (by simp)
    split at h
    · exact regexStep_marked h
    · exact plainStep_marked h
  case h_3 =>
    split at h
    · exact plainStep_marked h
    · cases h
      exact marked_of_mode (by simp) (by simp) (by simp)
  case h_4 =>
    split at h
    · rename_i hc
      cases h
      refine marked_of_plain rfl fun d hd _ hne => ?_
      exact absurd ((Option.some.inj hd).symm.trans hc.2) hne
    · cases h
      exact marked_of_mode (by simp) (by simp) (by simp)
  case h_5 d l hm =>
    split at h
    · cases h
      exact marked_of_literal rfl (hst.literal _ _ hm)
    · rename_i hl
      cases h
      refine marked_of_plain rfl fun e he _ _ => ?_
      have closing : EsModule.isComplete (some c) = true := by
        rcases Literal.closed_by (hs d l hm) hl with rfl | rfl | rfl | rfl <;> decide
      rw [← Option.some.inj he, closing]
      exact hst.literal _ _ hm
    · simp at h
  case h_6 => exact regexStep_marked h
  case h_7 hm =>
    split at h
    · rename_i hc
      cases h
      have space := isSpace_of_isIdentChar hc
      exact marked_of_flags rfl (hst.flags hm).1 ⟨c, rfl, space, ne_of_class hc (by decide)⟩
    · exact plainStep_marked h

theorem Reads.marked (h : Reads st s t u) (hs : st.Sound) (hst : st.Marked) : u.Marked := by
  induction h with
  | nil => exact hst
  | cons h _ ih => exact ih (step_sound hs h) (step_marked hs hst h)

theorem isComplete_of_isWordChar (h : isWordChar c = true) : EsModule.isComplete (some c) = true := by
  apply decide_eq_true
  intro hm
  have none : ∀ d ∈ ['=', ',', '(', '[', '{', ':', '?', '+', '-', '*', '/', '%', '&', '|', '^', '!',
      '~', '<', '>', '.'], isWordChar d = false := forall_mem_of_all (by decide)
  simp [none c hm] at h

/-- The last token tells whether the line is complete, and it ends with neither a blank nor a
semicolon. -/
theorem Marked.ending (hst : st.Marked) (h : st.ending? = some e) :
    st.breaks = e.isComplete ∧ ∃ c ∈ st.before.head?, isSpace c = false ∧ c ≠ ';' := by
  unfold ending? at h
  split at h
  case h_1 hm =>
    cases h
    obtain ⟨hl, hh⟩ := hst.flags hm
    refine ⟨?_, hh⟩
    rw [breaks, hm, hl]
    rfl
  case h_2 c s hm hb =>
    have head : st.before.head? = some c := by rw [hb]; rfl
    have last (hs : isSpace c = false) (hc : c ≠ '/') :
        st.breaks = EsModule.isComplete (some c) := by
      rw [breaks, hm, hst.plain hm c head hs hc]
      rfl
    -- Of the marks that tokens end with, only the point leaves a line incomplete.
    have marks : ∀ d ∈ ['"', '\'', '`', ')', ']', '}', '.'], isSpace d = false ∧ d ≠ ';' ∧ d ≠ '/' ∧
        EsModule.isComplete (some d) = decide (d ≠ '.') := forall_mem_of_all (by decide)
    have mark (hc : c ∈ ['"', '\'', '`', ')', ']', '}', '.'])
        (he : e.isComplete = decide (c ≠ '.')) :
        st.breaks = e.isComplete ∧ ∃ c ∈ st.before.head?, isSpace c = false ∧ c ≠ ';' := by
      obtain ⟨hs, hsemi, hslash, hcomplete⟩ := marks c hc
      exact ⟨by rw [last hs hslash, hcomplete, he], c, head, hs, hsemi⟩
    split at h
    · rename_i hw
      cases h
      have space := isSpace_of_isWordChar hw
      refine ⟨?_, c, head, space, ne_of_class hw (by decide)⟩
      rw [last space (ne_of_class hw (by decide)), isComplete_of_isWordChar hw]
      rfl
    split at h
    · rename_i hq
      cases h
      rcases hq with rfl | rfl <;> exact mark (by simp) rfl
    split at h
    · rename_i hq
      cases h
      exact mark (by simp [hq]) (by rw [hq]; rfl)
    split at h
    · rename_i hq
      cases h
      rcases hq with rfl | rfl | rfl <;> exact mark (by simp) rfl
    split at h
    · rename_i hq
      cases h
      exact mark (by simp [hq.1]) (by rw [hq.1]; rfl)
    · simp at h
  case h_3 => simp at h

end

end Scan

theorem Ending.isComplete_iff {e : Ending} : e.isComplete = true ↔ e ≠ .regex ∧ e ≠ .point := by
  cases e <;> decide

/-- A text that is read as one statement and ends with it, and the token that it ends with. Only blanks
and semicolons can stand in front of the statement. -/
structure LoneStatement where
  text : List Char
  item : Item
  ending : Ending
  read : ofText? text = .ok [item]
  isStatement : item.kind ≠ .comment
  last : item.text <:+ text
  ends : (Scan.start.run? item.text).bind Scan.ending? = some ending

namespace LoneStatement

def beginsWithKeyword (l : LoneStatement) : Bool :=
  statementKeywords.any fun k => (afterKeyword? k l.text).isSome

section

variable {l : LoneStatement} {ls : List LoneStatement} {n : Nat} {w s : List Char} {ks : List Chunk}

theorem exists_reads (l : LoneStatement) : ∃ st, Scan.Reads Scan.start l.item.text [] st ∧
    st.breaks = l.ending.isComplete ∧
      ∃ c ∈ l.item.text.getLast?, isSpace c = false ∧ c ≠ ';' := by
  obtain ⟨st, hst, he⟩ := Option.bind_eq_some_iff.mp l.ends
  have hr := Scan.reads_of_run? hst
  obtain ⟨hb, c, hc, mark⟩ := (hr.marked Scan.sound_start Scan.marked_start).ending he
  have start : Scan.start.before = [] := rfl
  rw [hr.before, start, List.append_nil, List.head?_reverse] at hc
  exact ⟨st, hr, hb, c, hc, mark⟩

theorem isOpen (l : LoneStatement) : IsOpen l.item.text l.ending.isComplete := by
  obtain ⟨st, hst, hb, -⟩ := l.exists_reads
  rcases isRead_of_ofText? l.read l.item List.mem_cons_self with line | ⟨-, v, ho⟩
  · rw [beq_eq_false_iff_ne.mpr l.isStatement] at line
    have closed := line.terminated
    have left := hst.closes
    rw [List.append_nil] at left
    rw [Bool.false_or, left] at closed
    exact absurd closed (by simp [Scan.closes])
  · obtain ⟨u, hu, hr, rfl⟩ := ho.rests
    obtain rfl := hu.det hst
    exact hb ▸ ho

theorem exists_lead (l : LoneStatement) :
    ∃ w, (∀ c ∈ w, isSpace c = true ∨ c = ';') ∧ l.text = w ++ l.item.text := by
  obtain ⟨ks, hks, hitem⟩ := ofText?_eq_ok.mp l.read
  obtain ⟨k, rfl, hk⟩ := List.map_eq_singleton_iff.mp hitem
  have htext : l.item.text = k.text := by rw [← hk]; rfl
  have cut := cut_of_chunks hks
  generalize ht : l.text = t at cut
  cases cut with
  | @chunk _ w v _ _ hw _ _ _ _ h =>
    refine ⟨w, hw, ?_⟩
    -- What stood behind the statement would end the text with a blank or a semicolon.
    obtain ⟨st, -, -, c, hc, hspace, hsemi⟩ := l.exists_reads
    have none : v = [] := by
      by_contra hv
      have skipped : ∀ d ∈ v, isSpace d = true ∨ d = ';' := by
        cases h with
        | last hv => exact hv
      obtain ⟨lead, hlead⟩ := l.last
      have ends : (lead ++ l.item.text).getLast? = v.getLast? := by
        rw [hlead, ht, ← List.append_assoc, List.getLast?_append_of_ne_nil _ hv]
      have some : l.item.text ≠ [] := by
        rintro h
        simp [h] at hc
      rw [List.getLast?_append_of_ne_nil _ some, hc] at ends
      rcases skipped c (List.mem_of_getLast? ends.symm) with h | h
      · simp [hspace] at h
      · exact hsemi h
    rw [none, List.append_nil, htext]

theorem text_eq (l : LoneStatement) (h : ∀ c ∈ l.text.head?, ¬(isSpace c = true ∨ c = ';')) :
    l.item.text = l.text := by
  obtain ⟨w, hw, ht⟩ := l.exists_lead
  cases w with
  | nil => exact ht.symm
  | cons c w =>
    refine absurd (hw c List.mem_cons_self) (h c ?_)
    rw [ht]
    rfl

theorem begins_of_keyword (h : l.beginsWithKeyword = true) :
    l.item.text = l.text ∧ startsStatement l.item.text = true := by
  obtain ⟨k, hk, hs⟩ := List.any_eq_true.mp h
  obtain ⟨r, hr⟩ := Option.isSome_iff_exists.mp hs
  obtain ⟨htext, -⟩ := afterKeyword?_eq_some.mp hr
  have letters := isIdentChar_of_mem_keyword hk
  obtain ⟨c, t, hc, hident⟩ : ∃ c t, l.text = c :: t ∧ isIdentChar c = true := by
    cases k with
    | nil => exact absurd hk (by decide)
    | cons c k => exact ⟨c, k ++ r, htext, letters c List.mem_cons_self⟩
  have space := Scan.isSpace_of_isIdentChar hident
  have semi : c ≠ ';' := ne_of_class hident (by decide)
  have same : l.item.text = l.text := by
    apply l.text_eq
    rw [hc]
    exact forall_head?_cons (by simp [space, semi])
  refine ⟨same, ?_⟩
  rw [same]
  refine List.any_eq_true.mpr ⟨k, hk, ?_⟩
  rwa [dropWhile_eq_self_of_head (by rw [hc]; exact forall_head?_cons space)]

theorem join_texts (l j : LoneStatement) (ls : List LoneStatement) :
    join ['\n'] ((l :: j :: ls).map (·.item.text)) =
      l.item.text ++ '\n' :: join ['\n'] ((j :: ls).map (·.item.text)) := by
  simp [join]

theorem startsStatement_join (l : LoneStatement) (ls : List LoneStatement)
    (h : startsStatement l.item.text = true) :
    startsStatement (join ['\n'] ((l :: ls).map (·.item.text))) = true := by
  cases ls with
  | nil => exact h
  | cons j ls =>
    rw [join_texts]
    exact startsStatement_append_newline h _

theorem exists_join (l : LoneStatement) (ls : List LoneStatement) :
    ∃ c t, join ['\n'] ((l :: ls).map (·.item.text)) = c :: t ∧ ¬(isSpace c = true ∨ c = ';') := by
  obtain ⟨c, t, ht, hc, -⟩ := l.isOpen.begins
  cases ls with
  | nil => exact ⟨c, t, ht, hc⟩
  | cons j ls => exact ⟨c, _, by rw [join_texts, ht]; rfl, hc⟩

/-- Complete lines are read one by one if keywords begin them. -/
theorem chunks_join (hk : ∀ l ∈ ls.tail, startsStatement l.item.text = true)
    (hc : ∀ l ∈ ls.dropLast, l.ending.isComplete = true) (n : Nat) :
    chunks n (join ['\n'] (ls.map (·.item.text))) =
      .ok (chunksOfLines n (ls.map fun l => (l.item.text, false))) := by
  induction ls generalizing n with
  | nil =>
    have read : chunks n (join ['\n'] []) = .ok [] := by rw [join, chunks]
    exact read
  | cons l ls ih =>
    cases ls with
    | nil => exact l.isOpen.chunks_alone n
    | cons j ls =>
      obtain ⟨hl, hrest⟩ : l.ending.isComplete = true ∧
          ∀ k ∈ (j :: ls).dropLast, k.ending.isComplete = true :=
        List.forall_mem_cons.mp hc
      have opened : IsOpen l.item.text true := hl ▸ l.isOpen
      have key := startsStatement_join j ls (hk j List.mem_cons_self)
      have rest := ih (fun k h => hk k (List.mem_cons_of_mem _ h)) hrest (n + size l.item.text + 1)
      rw [join_texts, opened.chunks_broken key, rest]
      rfl

/-- Behind a line that is not complete the next one is not read for itself. -/
theorem isComplete_of_chunks (hk : ∀ l ∈ ls.tail, startsStatement l.item.text = true)
    (h : chunks n (join ['\n'] (ls.map (·.item.text))) = .ok ks)
    (ht : ks.map Chunk.text = ls.map (·.item.text)) :
    ∀ l ∈ ls.dropLast, l.ending.isComplete = true := by
  induction ls generalizing n ks with
  | nil => simp
  | cons l ls ih =>
    cases ls with
    | nil => simp
    | cons j ls =>
      rw [join_texts] at h
      by_cases hl : l.ending.isComplete = true
      · have opened : IsOpen l.item.text true := hl ▸ l.isOpen
        rw [opened.chunks_broken (startsStatement_join j ls (hk j List.mem_cons_self))] at h
        cases hr : chunks (n + size l.item.text + 1) (join ['\n'] ((j :: ls).map (·.item.text))) with
        | error e =>
          rw [hr] at h
          cases h
        | ok js =>
          rw [hr] at h
          cases h
          refine List.forall_mem_cons.mpr ⟨hl, ?_⟩
          exact ih (fun k h => hk k (List.mem_cons_of_mem _ h)) hr (List.cons.inj ht).2
      -- The first statement goes on behind the line feed, so its text is longer.
      obtain ⟨c, t, hct, hc⟩ := exists_join j ls
      rw [hct] at h
      obtain ⟨f, b, js, -, rfl⟩ := l.isOpen.goes_on hc (fun hv => hl hv.1) h
      have first : dropEndWhile isSpace (l.item.text ++ '\n' :: c :: f) = l.item.text :=
        (List.cons.inj ht).1
      have space : isSpace c = false := by simpa using fun hd => hc (.inl hd)
      have trimmed := dropEndWhile_append_cons space (l.item.text ++ ['\n']) f
      rw [List.append_assoc, List.singleton_append] at trimmed
      have longer := congrArg List.length (trimmed.symm.trans first)
      simp only [List.length_append, List.length_cons] at longer
      omega

theorem chunks_lead (hw : ∀ c ∈ w, isSpace c = true ∨ c = ';') :
    chunks n (w ++ s) = chunks (n + size w) s := by
  induction w generalizing n with
  | nil => rfl
  | cons c w ih =>
    obtain ⟨hc, hw⟩ := List.forall_mem_cons.mp hw
    rw [List.cons_append, chunks_skip hc, ih hw, size_cons, size_skip hc, Nat.add_assoc]

/-- Texts that begin with keywords are statements, so they are joined as their statements are. -/
theorem exists_chunks_join (hk : ∀ l ∈ ls.tail, l.beginsWithKeyword = true) :
    ∃ n, chunks 0 (join ['\n'] (ls.map (·.text))) = chunks n (join ['\n'] (ls.map (·.item.text))) := by
  cases ls with
  | nil => exact ⟨0, rfl⟩
  | cons l ls =>
    obtain ⟨w, hw, ht⟩ := l.exists_lead
    have same : ls.map (·.text) = ls.map (·.item.text) :=
      List.map_congr_left fun j hj => (begins_of_keyword (hk j hj)).1.symm
    have lines : join ['\n'] ((l :: ls).map (·.text)) = w ++ join ['\n'] ((l :: ls).map (·.item.text)) := by
      rw [List.map_cons, List.map_cons, same, ht, join_cons, join_cons, List.append_assoc]
    exact ⟨size w, by rw [lines, chunks_lead hw, Nat.zero_add]⟩

theorem placeless_item (l : LoneStatement) :
    l.item.placeless = (l.item.text, Kind.ofStatement (size l.item.text) l.item.text) := by
  obtain ⟨ks, -, hitem⟩ := ofText?_eq_ok.mp l.read
  obtain ⟨k, rfl, hk⟩ := List.map_eq_singleton_iff.mp hitem
  have comment : k.isComment = false := by
    rw [← Item.kind_ofChunk_beq k, hk]
    exact beq_eq_false_iff_ne.mpr l.isStatement
  have text : k.text = l.item.text := by rw [← hk]; rfl
  rw [← text, ← hk, Item.placeless_ofChunk, comment]
  rfl

/-- Statements that are read alone are read one by one from neighbouring lines, if and only if none but
the last ends with a regular expression or a decimal point. All of them must end with operands, and all
but the first begin with keywords. -/
theorem ofText?_join_iff (hk : ∀ l ∈ ls.tail, l.beginsWithKeyword = true) :
    (∀ l ∈ ls.tail, l.item.text = l.text) ∧
    ((∃ m, ofText? (join ['\n'] (ls.map (·.text))) = .ok m ∧
        m.map Item.placeless = ls.map (·.item.placeless)) ↔
      ∀ l ∈ ls.dropLast, l.ending ≠ .regex ∧ l.ending ≠ .point) := by
  refine ⟨fun l hl => (begins_of_keyword (hk l hl)).1, ?_⟩
  have keys : ∀ l ∈ ls.tail, startsStatement l.item.text = true := fun l hl =>
    (begins_of_keyword (hk l hl)).2
  obtain ⟨n, hn⟩ := exists_chunks_join hk
  simp only [← Ending.isComplete_iff]
  constructor
  · rintro ⟨m, hm, same⟩
    obtain ⟨ks, hks, rfl⟩ := ofText?_eq_ok.mp hm
    apply isComplete_of_chunks keys (hn ▸ hks)
    have texts := congrArg (List.map Prod.fst) same
    rw [List.map_map, List.map_map, List.map_map] at texts
    exact texts
  · intro hc
    have read := chunks_join keys hc n
    rw [← hn] at read
    refine ⟨_, ofText?_eq_ok.mpr ⟨_, read, rfl⟩, ?_⟩
    rw [map_placeless_ofChunk, face_chunksOfLines, List.map_map]
    exact List.map_congr_left fun l _ => (placeless_item l).symm

/-- A string, a template over two lines, a bracket and a number end lines; the last may be a regular
expression. -/
theorem ofText?_join_operands : ∃ (ls : List LoneStatement) (m : EsModule),
    (∀ l ∈ ls.tail, l.beginsWithKeyword = true) ∧
    (∀ l ∈ ls.dropLast, l.ending ≠ .regex ∧ l.ending ≠ .point) ∧
    ls.map (·.text) = ["f(\"a\")".toList, "export const t = `x\n$\x7b y \x7d`".toList,
      "let n = 1.5".toList, "var r = /x/g".toList] ∧
    ofText? (join ['\n'] (ls.map (·.text))) = .ok m ∧
    m.map Item.placeless = ls.map (·.item.placeless) ∧ ∀ l ∈ ls.tail, l.item.text = l.text := by
  let call : LoneStatement := ⟨"f(\"a\")".toList, ⟨"f(\"a\")".toList, 0, 6, .statement⟩, .bracket,
    by decide +kernel, by decide, by decide +kernel, by decide +kernel⟩
  let template : LoneStatement := ⟨"export const t = `x\n$\x7b y \x7d`".toList,
    ⟨"export const t = `x\n$\x7b y \x7d`".toList, 0, 27, .declaration ["t"]⟩, .template,
    by decide +kernel, by decide, by decide +kernel, by decide +kernel⟩
  let number : LoneStatement := ⟨"let n = 1.5".toList, ⟨"let n = 1.5".toList, 0, 11, .statement⟩,
    .word, by decide +kernel, by decide, by decide +kernel, by decide +kernel⟩
  let regex : LoneStatement := ⟨"var r = /x/g".toList, ⟨"var r = /x/g".toList, 0, 12, .statement⟩,
    .regex, by decide +kernel, by decide, by decide +kernel, by decide +kernel⟩
  let ls := [call, template, number, regex]
  have keys : ∀ l ∈ ls.tail, l.beginsWithKeyword = true := by decide +kernel
  have complete : ∀ l ∈ ls.dropLast, l.ending ≠ .regex ∧ l.ending ≠ .point := by decide +kernel
  obtain ⟨texts, joined⟩ := ofText?_join_iff keys
  obtain ⟨m, hm, same⟩ := joined.mpr complete
  exact ⟨ls, m, keys, complete, rfl, hm, same, texts⟩

/-- Behind a regular expression the next statement is not read for itself. -/
theorem joined_behind_regex : ∃ l j : LoneStatement,
    l.text = "export const a = /x/".toList ∧ l.ending = .regex ∧
    j.text = "export const b = 1".toList ∧ j.ending = .word ∧ j.beginsWithKeyword = true ∧
    ofText? (join ['\n'] [l.text, j.text]) =
      .ok [⟨"export const a = /x/\nexport const b = 1".toList, 0, 39, .declaration ["a"]⟩] ∧
    ¬∃ m, ofText? (join ['\n'] [l.text, j.text]) = .ok m ∧
      m.map Item.placeless = [l, j].map (·.item.placeless) := by
  let l : LoneStatement := ⟨"export const a = /x/".toList,
    ⟨"export const a = /x/".toList, 0, 20, .declaration ["a"]⟩, .regex,
    by decide +kernel, by decide, by decide +kernel, by decide +kernel⟩
  let j : LoneStatement := ⟨"export const b = 1".toList,
    ⟨"export const b = 1".toList, 0, 18, .declaration ["b"]⟩, .word,
    by decide +kernel, by decide, by decide +kernel, by decide +kernel⟩
  have joined : ofText? (join ['\n'] [l.text, j.text]) =
      .ok [⟨"export const a = /x/\nexport const b = 1".toList, 0, 39, .declaration ["a"]⟩] := by
    decide +kernel
  refine ⟨l, j, rfl, rfl, rfl, rfl, by decide +kernel, joined, ?_⟩
  rintro ⟨m, hm, same⟩
  rw [joined] at hm
  cases hm
  exact absurd (congrArg List.length same) (by simp)

end

end LoneStatement

end StyleExports.EsModule
