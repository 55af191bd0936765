import StyleExports.Proofs.EsModule.DefaultExport
import StyleExports.Proofs.EsModule.Leads
import StyleExports.Proofs.Text.Place
import StyleExports.Synthesis

namespace StyleExports.EsModule

open Text

def skippedBytes : List UInt8 := [0x20, 0x09, 0x0a, 0x0c, 0x0d, 0x3b]

/-- The ranges of items tile a text. -/
structure Tiles (s : List Char) (m : EsModule) : Prop where
  text : ∀ i ∈ m, StandsAt s i.text i.start i.stop ∧
    (bytes s).extract i.start i.stop = bytes i.text
  /-- None is empty, and each is a part of the text. -/
  inside : ∀ i ∈ m, i.start < i.stop ∧ i.stop ≤ (bytes s).length
  apart : m.Pairwise fun i j => i.stop ≤ j.start
  /-- No item begins or ends with a blank. -/
  tight : ∀ i ∈ m, (∀ c ∈ i.text.head?, isSpace c = false) ∧ ∀ c ∈ i.text.getLast?, isSpace c = false
  /-- A byte outside of them is one of a blank or a semicolon. -/
  outside : ∀ (n : Nat) (b : UInt8), (bytes s)[n]? = some b →
    (∃ i ∈ m, i.start ≤ n ∧ n < i.stop) ∨ b ∈ skippedBytes
  /-- Where an exported object begins stands its brace. -/
  brace : ∀ i ∈ m, ∀ n, i.kind = .exportDefault (some n) →
    i.start ≤ n ∧ n < i.stop ∧ (bytes s)[n]? = some 0x7b

section

variable {s t w : List Char} {n k : Nat} {ks : List Chunk} {c : Char}

theorem bytes_of_skipped (hc : isSpace c = true ∨ c = ';') :
    ∀ b ∈ String.utf8EncodeChar c, b ∈ skippedBytes := by
  simp only [isSpace, Bool.or_eq_true, beq_iff_eq] at hc
  rcases hc with ((((rfl | rfl) | rfl) | rfl) | rfl) | rfl <;>
    exact forall_mem_of_all (by decide)

/-- Chunks stand in a text from an offset on, with nothing but blanks and semicolons between them. -/
inductive Cut : Nat → List Char → List Chunk → Prop where
  | last {n : Nat} {w : List Char} (hw : ∀ c ∈ w, isSpace c = true ∨ c = ';') : Cut n w []
  | chunk {n : Nat} {w t : List Char} {k : Chunk} {ks : List Chunk}
      (hw : ∀ c ∈ w, isSpace c = true ∨ c = ';') (hk : k.start = n + size w) (hn : k.text ≠ [])
      (hh : ∀ c ∈ k.text.head?, isSpace c = false) (hl : ∀ c ∈ k.text.getLast?, isSpace c = false)
      (h : Cut k.stop t ks) : Cut n (w ++ (k.text ++ t)) (k :: ks)

theorem Cut.pad (hw : ∀ c ∈ w, isSpace c = true ∨ c = ';') (h : Cut (n + size w) t ks) :
    Cut n (w ++ t) ks := by
  have both {v : List Char} (hv : ∀ c ∈ v, isSpace c = true ∨ c = ';') :
      ∀ c ∈ w ++ v, isSpace c = true ∨ c = ';' := by
    intro c hc
    exact (List.mem_append.mp hc).elim (hw c) (hv c)
  cases h with
  | last hv => exact .last (both hv)
  | @chunk _ v t k ks hv hk hn hh hl h =>
    rw [← List.append_assoc]
    refine .chunk (both hv) ?_ hn hh hl h
    rw [hk, size_append, Nat.add_assoc]

theorem Cut.trimmed (hc : ¬(isSpace c ∨ c = ';')) (comment : Bool)
    (h : Cut (n + size (c :: w)) t ks) :
    Cut n (c :: (w ++ t)) (.trimmed n (c :: w) comment :: ks) := by
  obtain ⟨e, he, split⟩ := exists_dropEndWhile isSpace (c :: w)
  have space : isSpace c = false := by simpa using fun hd => hc (.inl hd)
  have begins : dropEndWhile isSpace (c :: w) = c :: dropEndWhile isSpace w :=
    dropEndWhile_append_cons space [] w
  have whole : c :: (w ++ t) = [] ++ (dropEndWhile isSpace (c :: w) ++ (e ++ t)) := by
    rw [List.nil_append, ← List.append_assoc, ← split, List.cons_append]
  have rest : Cut (n + size (dropEndWhile isSpace (c :: w))) (e ++ t) ks := by
    apply Cut.pad fun d hd => .inl (he d hd)
    rwa [Nat.add_assoc, ← size_append, ← split]
  have head : ∀ d ∈ (dropEndWhile isSpace (c :: w)).head?, isSpace d = false := by
    rw [begins]
    exact forall_head?_cons space
  rw [whole]
  exact .chunk (k := .trimmed n (c :: w) comment) (by simp) rfl (by simp [Chunk.trimmed, begins]) head
    (last_dropEndWhile isSpace (c :: w)) rest

theorem cut_of_chunks (h : chunks n s = .ok ks) : Cut n s ks := by
  induction h using chunks_induction with
  | nil => exact .last (by simp)
  | @skip n c s ks hc _ _ ih =>
    refine Cut.pad (w := [c]) (by simpa using hc) ?_
    rwa [size_cons, size_skip hc]
  | comment hc _ _ _ ih => exact ih.trimmed hc true
  | statement hc _ _ _ _ ih => exact ih.trimmed hc false

theorem Cut.le (h : Cut n t ks) : ∀ k ∈ ks, n ≤ k.start := by
  induction h with
  | last => simp
  | @chunk n w t k ks hw hk _ _ _ _ ih =>
    intro j hj
    rcases List.mem_cons.mp hj with rfl | hj
    · omega
    · have := ih j hj
      have : k.stop = k.start + size k.text := rfl
      omega

theorem Cut.pairwise (h : Cut n t ks) : ks.Pairwise fun k j => k.stop ≤ j.start := by
  induction h with
  | last => exact .nil
  | chunk _ _ _ _ _ h ih => exact .cons h.le ih

theorem Cut.standsAt {u : List Char} (h : Cut n t ks) (hu : size u = n) :
    ∀ k ∈ ks, StandsAt (u ++ t) k.text k.start k.stop := by
  induction h generalizing u with
  | last => simp
  | @chunk n w t k ks hw hk _ _ _ _ ih =>
    have parts : u ++ (w ++ (k.text ++ t)) = (u ++ w) ++ (k.text ++ t) := by simp
    have place : size (u ++ w) = k.start := by rw [size_append, hu, hk]
    intro j hj
    rw [parts]
    rcases List.mem_cons.mp hj with rfl | hj
    · exact ⟨u ++ w, t, rfl, place, rfl⟩
    · rw [← List.append_assoc]
      refine ih ?_ j hj
      rw [size_append, place]
      rfl

theorem Cut.tight (h : Cut n t ks) : ∀ k ∈ ks, k.text ≠ [] ∧
    (∀ c ∈ k.text.head?, isSpace c = false) ∧ ∀ c ∈ k.text.getLast?, isSpace c = false := by
  induction h with
  | last => simp
  | chunk _ _ hn hh hl _ ih => exact List.forall_mem_cons.mpr ⟨⟨hn, hh, hl⟩, ih⟩

theorem Cut.outside (h : Cut n t ks) {j : Nat} {b : UInt8} (hb : (bytes t)[j]? = some b) :
    (∃ k ∈ ks, k.start ≤ n + j ∧ n + j < k.stop) ∨ b ∈ skippedBytes := by
  have skipped {w : List Char} (hw : ∀ c ∈ w, isSpace c = true ∨ c = ';') (hb : b ∈ bytes w) :
      b ∈ skippedBytes := by
    obtain ⟨c, hc, hbc⟩ := List.mem_flatMap.mp hb
    exact bytes_of_skipped (hw c hc) b hbc
  induction h generalizing j with
  | last hw => exact .inr (skipped hw (List.mem_of_getElem? hb))
  | @chunk n w t k ks hw hk _ _ _ _ ih =>
    have stop : k.stop = n + size w + size k.text := by rw [← hk]; rfl
    by_cases before : j < size w
    · rw [bytes_append, List.getElem?_append_left (by rwa [length_bytes])] at hb
      exact .inr (skipped hw (List.mem_of_getElem? hb))
    by_cases within : j < size w + size k.text
    · exact .inl ⟨k, List.mem_cons_self, by omega, by omega⟩
    -- Behind the chunk the byte belongs to the rest.
    obtain ⟨i, rfl⟩ : ∃ i, j = size w + (size k.text + i) :=
      ⟨j - size w - size k.text, by omega⟩
    rw [getElem?_bytes_append, getElem?_bytes_append] at hb
    rcases ih hb with ⟨m, hm, h1, h2⟩ | hskip
    · exact .inl ⟨m, List.mem_cons_of_mem _ hm, by omega, by omega⟩
    · exact .inr hskip

theorem brace_of_ofChunk {j : Chunk} (h : (Item.ofChunk j).kind = .exportDefault (some k)) :
    ∃ x y, j.text = x ++ '{' :: y ∧ k = j.start + size x := by
  unfold Item.ofChunk at h
  cases hj : j.isComment with
  | true => simp [hj] at h
  | false =>
    simp only [hj, Bool.false_eq_true, if_false] at h
    obtain ⟨b, e, t, ht, -, -, -, rfl⟩ := Kind.exists_exportOpening h
    refine ⟨"export".toList ++ (b ++ ("default".toList ++ e)), t, by simp [ht, exportOpening_eq], ?_⟩
    have length : size j.text =
        size ("export".toList ++ (b ++ ("default".toList ++ e))) + size ('{' :: t) := by
      rw [ht, ← size_append]
      simp [exportOpening_eq]
    have stop : j.stop = j.start + size j.text := rfl
    omega

theorem tiles_of_cut (h : Cut 0 s ks) : Tiles s (ks.map Item.ofChunk) := by
  have stands : ∀ k ∈ ks, StandsAt s k.text k.start k.stop := h.standsAt (u := []) rfl
  refine ⟨?_, ?_, ?_, ?_, ?_, ?_⟩
  · rintro i hi
    obtain ⟨k, hk, rfl⟩ := List.mem_map.mp hi
    exact ⟨stands k hk, (stands k hk).bytes⟩
  · rintro i hi
    obtain ⟨k, hk, rfl⟩ := List.mem_map.mp hi
    obtain ⟨u, v, rfl, hu, hstop⟩ := stands k hk
    have pos := size_pos_of_ne_nil (h.tight k hk).1
    have start : (Item.ofChunk k).start = k.start := rfl
    have stop : (Item.ofChunk k).stop = k.stop := rfl
    rw [length_bytes, size_append, size_append]
    omega
  · exact List.pairwise_map.mpr h.pairwise
  · rintro i hi
    obtain ⟨k, hk, rfl⟩ := List.mem_map.mp hi
    exact (h.tight k hk).2
  · intro n b hb
    refine (h.outside hb).imp_left ?_
    rintro ⟨k, hk, hin⟩
    rw [Nat.zero_add] at hin
    exact ⟨_, List.mem_map_of_mem hk, hin⟩
  · rintro i hi n hn
    obtain ⟨k, hk, rfl⟩ := List.mem_map.mp hi
    obtain ⟨x, y, hx, rfl⟩ := brace_of_ofChunk hn
    obtain ⟨u, v, rfl, hu, hstop⟩ := stands k hk
    have longer : size k.text = size x + (1 + size y) := by rw [hx, size_append]; rfl
    have start : (Item.ofChunk k).start = k.start := rfl
    have stop : (Item.ofChunk k).stop = k.stop := rfl
    refine ⟨by omega, by omega, ?_⟩
    rw [← hu, getElem?_bytes_append, hx, List.append_assoc]
    exact getElem?_bytes_append x ('{' :: y ++ v) 0

namespace Scan

variable {st u : Scan} {r : List Char} {f : Fault}

theorem plainStep_fault (h : st.plainStep c r = .error (f, k)) : k = st.offset := by
  unfold plainStep at h
  repeat' split at h
  all_goals simp_all

theorem regexStep_fault {inClass esc : Bool} (h : st.regexStep inClass esc c = .error (f, k)) :
    k = st.since := by
  simp only [regexStep] at h
  repeat' split at h
  all_goals simp_all

/-- A fault is placed here, or where the literal began that the automaton is inside of. -/
theorem step_fault (h : st.step c r = .error (f, k)) : k = st.offset ∨ k = st.since := by
  unfold step at h
  repeat' split at h
  all_goals first
    | (have here := plainStep_fault h; exact .inl here)
    | exact .inr (regexStep_fault h)
    | simp_all

theorem plainStep_since (h : st.plainStep c r = .ok (.more u)) :
    u.since = st.since ∨ u.since = st.offset := by
  unfold plainStep at h
  repeat' split at h
  all_goals
    simp only [Except.ok.injEq, Step.more.injEq, reduceCtorEq] at h
    try subst h
    try simp [push, pushLast, begin]

theorem regexStep_since {inClass esc : Bool} (h : st.regexStep inClass esc c = .ok (.more u)) :
    u.since = st.since := by
  simp only [regexStep] at h
  repeat' split at h
  all_goals
    simp only [Except.ok.injEq, Step.more.injEq, reduceCtorEq] at h
    try subst h
    try rfl

theorem step_since (h : st.step c r = .ok (.more u)) : u.since = st.since ∨ u.since = st.offset := by
  unfold step at h
  repeat' split at h
  all_goals first
    | (have since := plainStep_since h; exact since)
    | exact .inl (regexStep_since h)
    | (simp only [Except.ok.injEq, Step.more.injEq] at h; subst h; exact .inl rfl)
    | simp at h

theorem finish_fault (h : st.finish = .error (f, k)) : k = st.offset ∨ k = st.since := by
  unfold finish at h
  repeat' split at h
  all_goals simp_all

theorem statement_fault {whole : List Char} (hw : whole = st.before.reverse ++ s)
    (hs : IsBoundary whole st.since) (h : st.statement s = .error (f, k)) : IsBoundary whole k := by
  have here {st : Scan} {s : List Char} (hw : whole = st.before.reverse ++ s) :
      IsBoundary whole st.offset := ⟨_, _, hw, size_reverse _⟩
  induction s generalizing st with
  | nil =>
    rw [statement] at h
    cases hf : st.finish with
    | ok x => simp [hf, bind, Except.bind, pure, Except.pure] at h
    | error e =>
      simp only [hf, bind, Except.bind, Except.error.injEq] at h
      rw [h] at hf
      rcases finish_fault hf with rfl | rfl
      · exact here hw
      · exact hs
  | cons c s ih =>
    rw [statement] at h
    cases hstep : st.step c s with
    | error e =>
      simp only [hstep, bind, Except.bind, Except.error.injEq] at h
      rw [h] at hstep
      rcases step_fault hstep with rfl | rfl
      · exact here hw
      · exact hs
    | ok x =>
      cases x with
      | endsBefore => simp [hstep, bind, Except.bind, pure, Except.pure] at h
      | endsWith => simp [hstep, bind, Except.bind, pure, Except.pure] at h
      | more u =>
        have next : u.statement s = .error (f, k) := by
          cases hu : u.statement s with
          | error e => simpa [hstep, hu, bind, Except.bind] using h
          | ok p => simp [hstep, hu, bind, Except.bind, pure, Except.pure] at h
        have since : IsBoundary whole u.since := by
          rcases step_since hstep with hu | hu
          · rwa [hu]
          · rw [hu]
            exact here hw
        refine ih ?_ since next
        rw [hw, step_before hstep]
        simp

end Scan

theorem fault_of_chunks {f : Fault} (h : chunks n s = .error (f, k)) :
    ∃ p, IsBoundary s p ∧ k = n + p := by
  have zero (s : List Char) : IsBoundary s 0 := ⟨[], s, rfl, rfl⟩
  have behind (a b : List Char) {n k : Nat} (h : ∃ p, IsBoundary b p ∧ k = n + size a + p) :
      ∃ p, IsBoundary (a ++ b) p ∧ k = n + p := by
    obtain ⟨p, hp, rfl⟩ := h
    exact ⟨size a + p, hp.mono, Nat.add_assoc ..⟩
  induction h using chunks_fault_induction with
  | inComment => exact ⟨0, zero _, rfl⟩
  | @inStatement n j c s hc none fault =>
    have started : c :: s = Scan.start.before.reverse ++ c :: s := rfl
    exact ⟨j, Scan.statement_fault started (zero _) fault, rfl⟩
  | @skip n k c s hc _ _ ih =>
    refine behind [c] s ?_
    rwa [size_cons, size_skip hc]
  | comment _ _ _ _ ih => exact behind _ _ ih
  | statement _ _ _ _ _ ih => exact behind _ _ ih

/-- Every text is read as items whose ranges tile it, or refused for a fault at a place in it. -/
theorem ofText?_tiles (s : List Char) :
    (∃ m, ofText? s = .ok m ∧ Tiles s m) ∨
    ∃ fault u v, s = u ++ v ∧ ofText? s = .error (fault, size u) ∧
      Synthesis.readModule s = .error (.badModule fault (.after u)) := by
  cases h : chunks 0 s with
  | ok ks =>
    exact .inl ⟨ks.map Item.ofChunk, ofText?_eq_ok.mpr ⟨ks, h, rfl⟩, tiles_of_cut (cut_of_chunks h)⟩
  | error e =>
    obtain ⟨fault, k⟩ := e
    obtain ⟨p, ⟨u, v, rfl, rfl⟩, rfl⟩ := fault_of_chunks h
    have refused : ofText? (u ++ v) = .error (fault, size u) := by
      rw [ofText?, h, Nat.zero_add]
      rfl
    refine .inr ⟨fault, u, v, rfl, refused, ?_⟩
    rw [Synthesis.readModule, refused]
    simp only [ofOffset_boundary]

end

end StyleExports.EsModule
