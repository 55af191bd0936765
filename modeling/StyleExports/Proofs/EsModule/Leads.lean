import StyleExports.Proofs.EsModule.Line
import StyleExports.Proofs.EsModule.Resume

namespace StyleExports.EsModule

open Text

namespace Chunk

variable {a s t : List Char}

theorem head_of_comment? {r : Option (List Char × List Char)} (h : comment? s = some r) :
    ∃ t, s = '/' :: t := by
  unfold comment? at h
  split at h
  · exact ⟨_, rfl⟩
  · exact ⟨_, rfl⟩
  · simp at h

theorem comment?_congr (h : comment? (a ++ s) = some (some (a, s))) (ht : t.head? = s.head?) :
    comment? (a ++ t) = some (some (a, t)) := by
  generalize hx : a ++ s = x at h
  unfold comment? at h
  split at h
  · rename_i y
    simp only [Option.some.injEq, Prod.mk.injEq] at h
    obtain ⟨rfl, rfl⟩ := h
    have hall : ∀ c ∈ y.takeWhile (· != '\n'), (c != '\n') = true := fun c hc =>
      List.mem_takeWhile_imp (p := (· != '\n')) hc
    have stop : ∀ c ∈ t.head?, (c != '\n') = false := by
      rw [ht]
      intro c hc
      obtain ⟨z, hz⟩ := List.head?_eq_some_iff.mp hc
      exact head_dropWhile_of_cons (p := (· != '\n')) hz
    have take : t.takeWhile (· != '\n') = [] := by
      cases t with
      | nil => rfl
      | cons c t => exact List.takeWhile_cons_of_neg (by simp [stop c rfl])
    simp only [List.cons_append, comment?, List.takeWhile_append_of_pos hall,
      List.dropWhile_append_of_pos hall, dropWhile_eq_self_of_head stop, take, List.append_nil]
  · simp only [Option.some.injEq, Option.map_eq_some_iff, Prod.mk.injEq, Prod.exists] at h
    obtain ⟨b, u, h, rfl, rfl⟩ := h
    simp [comment?, (commentRest?_concat h).2 t]
  · simp at h

theorem comment?_cons_congr {c : Char} (h : comment? (c :: s) = none) (ht : t.head? = s.head?) :
    comment? (c :: t) = none := by
  cases t with
  | nil => exact comment?_singleton c
  | cons d t =>
    obtain ⟨u, rfl⟩ := List.head?_eq_some_iff.mp ht.symm
    exact comment?_eq_none.mpr (comment?_eq_none.mp h)

end Chunk

/-- Before the text `v`, a text is read as chunks from an offset on, and nothing of `v` with it. -/
inductive Leads (v : List Char) : Nat → List Char → List Chunk → Prop where
  | nil {n : Nat} : Leads v n [] []
  | skip {n : Nat} {c : Char} {s : List Char} {ks : List Chunk} (hc : isSpace c ∨ c = ';')
      (h : Leads v (n + 1) s ks) : Leads v n (c :: s) ks
  | comment {n : Nat} {a s : List Char} {ks : List Chunk}
      (hk : Chunk.comment? (a ++ (s ++ v)) = some (some (a, s ++ v)))
      (h : Leads v (n + size a) s ks) : Leads v n (a ++ s) (.trimmed n a true :: ks)
  | statement {n : Nat} {c : Char} {a s : List Char} {ks : List Chunk}
      (hc : ¬(isSpace c ∨ c = ';')) (hk : Chunk.comment? (c :: (a ++ (s ++ v))) = none)
      (hs : Scan.start.statement (c :: a ++ (s ++ v)) = .ok (c :: a, s ++ v))
      (h : Leads v (n + size (c :: a)) s ks) :
      Leads v n (c :: a ++ s) (.trimmed n (c :: a) false :: ks)

section

variable {v w s : List Char} {n : Nat} {ks : List Chunk}

theorem size_skip {c : Char} (hc : isSpace c ∨ c = ';') : c.utf8Size = 1 := by
  rcases hc with hc | rfl
  · simp only [isSpace, Bool.or_eq_true, beq_iff_eq] at hc
    rcases hc with (((rfl | rfl) | rfl) | rfl) | rfl <;> rfl
  · rfl

/-- What stands in front of a text is read first, and then the text. -/
theorem Leads.chunks_append (h : Leads v n s ks) :
    chunks n (s ++ v) = (chunks (n + size s) v).map (ks ++ ·) := by
  have map (k : Chunk) (js : List Chunk) (e : Except Scan.Placed (List Chunk)) :
      (e.map (js ++ ·)).map (k :: ·) = e.map (k :: js ++ ·) := by
    cases e <;> rfl
  induction h with
  | nil =>
    rw [List.nil_append, size_nil, Nat.add_zero]
    cases chunks _ v <;> rfl
  | skip hc _ ih => rw [size_cons, size_skip hc, ← Nat.add_assoc, List.cons_append, chunks_skip hc, ih]
  | @comment n a s ks hk _ ih =>
    obtain ⟨t, ht⟩ := Chunk.head_of_comment? hk
    rw [size_append, ← Nat.add_assoc, List.append_assoc, ht, chunks_of_comment (by decide) (ht ▸ hk), ih,
      map]
  | @statement n c a s ks hc hk hs _ ih =>
    rw [size_append, ← Nat.add_assoc, List.append_assoc, List.cons_append, chunks_of_statement hc hk hs,
      ih, map]

/-- The reading goes the same way before every text that begins with the same character, if the same
keywords begin before both. -/
theorem Leads.before {d : Char} (hd : d ≠ '\n')
    (same : ∀ x, startsStatement (x ++ d :: v) = startsStatement (x ++ d :: w))
    (h : Leads (d :: v) n s ks) : Leads (d :: w) n s ks := by
  have head (x : List Char) : (x ++ d :: w).head? = (x ++ d :: v).head? := by cases x <;> rfl
  induction h with
  | nil => exact .nil
  | skip hc _ ih => exact .skip hc ih
  | @comment n a s ks hk _ ih => exact .comment (Chunk.comment?_congr hk (head s)) ih
  | @statement n c a s ks hc hk hs _ ih =>
    have hk : Chunk.comment? (c :: (a ++ (s ++ d :: w))) = none := by
      refine Chunk.comment?_cons_congr hk ?_
      rw [← List.append_assoc, ← List.append_assoc]
      exact head (a ++ s)
    exact .statement hc hk (Scan.statement_before hd same hs) ih

theorem Leads.before_export {r q : List Char} (hv : afterKeyword? "export".toList v = some r)
    (hw : afterKeyword? "export".toList w = some q) (h : Leads v n s ks) : Leads w n s ks := by
  have same (x : List Char) : startsStatement (x ++ v) = startsStatement (x ++ w) :=
    (startsStatement_export hv x).trans (startsStatement_export hw x).symm
  obtain ⟨rfl, -⟩ := afterKeyword?_eq_some.mp hv
  obtain ⟨rfl, -⟩ := afterKeyword?_eq_some.mp hw
  exact h.before (d := 'e') (by decide) same

/-- Every chunk of a module is led to, over the chunks in front of it. -/
theorem exists_leads {k : Chunk} {js : List Chunk} (h : chunks n s = .ok (ks ++ k :: js)) :
    ∃ u c t, s = u ++ c :: t ∧ ¬(isSpace c ∨ c = ';') ∧ Leads (c :: t) n u ks ∧
      chunks (n + size u) (c :: t) = .ok (k :: js) := by
  generalize hl : ks ++ k :: js = ls at h
  induction h using chunks_induction generalizing ks with
  | nil => simp at hl
  | @skip n c s ls hc _ _ ih =>
    obtain ⟨u, d, t, rfl, hd, hu, ht⟩ := ih hl
    refine ⟨c :: u, d, t, rfl, hd, .skip hc hu, ?_⟩
    rwa [size_cons, size_skip hc, ← Nat.add_assoc]
  | @comment n c a b ls hc hk _ h ih =>
    cases ks with
    | nil => exact ⟨[], c, a ++ b, rfl, hc, .nil, h.trans (congrArg Except.ok hl.symm)⟩
    | cons j ks =>
      obtain ⟨rfl, later⟩ := List.cons.inj hl
      obtain ⟨u, d, t, rfl, hd, hu, ht⟩ := ih later
      refine ⟨c :: a ++ u, d, t, by rw [List.append_assoc]; rfl, hd, .comment hk hu, ?_⟩
      rwa [size_append, ← Nat.add_assoc]
  | @statement n c a b ls hc hk hs _ h ih =>
    cases ks with
    | nil => exact ⟨[], c, a ++ b, rfl, hc, .nil, h.trans (congrArg Except.ok hl.symm)⟩
    | cons j ks =>
      obtain ⟨rfl, later⟩ := List.cons.inj hl
      obtain ⟨u, d, t, rfl, hd, hu, ht⟩ := ih later
      refine ⟨c :: a ++ u, d, t, by rw [List.append_assoc]; rfl, hd, .statement hc hk hs hu, ?_⟩
      rwa [size_append, ← Nat.add_assoc]

/-- A statement among the chunks of a text: what stands in front of it, the blanks that are no part of it
behind it, and what follows. -/
structure StatementAt (s : List Char) (ks js : List Chunk) (text lead spaces rest : List Char) : Prop where
  whole : s = lead ++ (text ++ (spaces ++ rest))
  begins : ∃ c t, text = c :: t ∧ ¬(isSpace c ∨ c = ';')
  last : ∀ c ∈ text.getLast?, isSpace c = false
  skipped : ∀ c ∈ spaces, isSpace c = true
  leads : Leads (text ++ (spaces ++ rest)) 0 lead ks
  comment : Chunk.comment? (text ++ (spaces ++ rest)) = none
  statement : Scan.start.statement (text ++ (spaces ++ rest)) = .ok (text ++ spaces, rest)
  behind : chunks (size lead + size (text ++ spaces)) rest = .ok js

theorem exists_statementAt {k : Chunk} {js : List Chunk} (h : chunks 0 s = .ok (ks ++ k :: js))
    (hk : k.isComment = false) : ∃ lead spaces rest,
      StatementAt s ks js k.text lead spaces rest ∧ k = ⟨size lead, k.text, false⟩ := by
  obtain ⟨lead, c, t, rfl, hc, leads, here⟩ := exists_leads h
  rw [Nat.zero_add] at here
  obtain ⟨a, rest, is, hrest, hlen, hab, hcases⟩ := exists_of_chunks hc here
  rcases hcases with ⟨-, hcons⟩ | ⟨comment, statement, hcons⟩
  · obtain ⟨rfl, -⟩ := List.cons.inj hcons
    simp [Chunk.trimmed] at hk
  obtain ⟨rfl, rfl⟩ := List.cons.inj hcons
  obtain ⟨spaces, skipped, ha⟩ := exists_dropEndWhile isSpace a
  have space : isSpace c = false := by simpa using fun hs => hc (.inl hs)
  have begins : dropEndWhile isSpace a = c :: dropEndWhile isSpace a.tail := by
    cases a with
    | nil => simp [← hab] at hlen
    | cons d a =>
      obtain rfl : d = c := (List.cons.inj hab).1
      exact dropEndWhile_append_cons space [] a
  have whole : c :: t = dropEndWhile isSpace a ++ (spaces ++ rest) := by
    rw [← hab, ← List.append_assoc, ← ha]
  rw [whole] at leads comment statement
  exact ⟨lead, spaces, rest, ⟨by rw [whole]; rfl, ⟨c, _, begins, hc⟩, last_dropEndWhile isSpace a, skipped,
    leads, comment, by rw [Chunk.trimmed, ← ha]; exact statement, by rwa [Chunk.trimmed, ← ha]⟩, rfl⟩

def Chunk.face (k : Chunk) : List Char × Bool := (k.text, k.isComment)

/-- The chunks of a text are the same wherever it begins, and move with it. -/
theorem chunks_moved (m : Nat) (h : chunks n s = .ok ks) :
    ∃ js, chunks m s = .ok js ∧
      js.map (fun k => (k.face, k.start + n)) = ks.map fun k => (k.face, k.start + m) := by
  -- What is as far from where both texts begin is so from a place further on.
  have back {js ks : List Chunk} {i j l : Nat}
      (h : js.map (fun k => (k.face, k.start + (i + l))) =
        ks.map fun k => (k.face, k.start + (j + l))) :
      js.map (fun k => (k.face, k.start + i)) = ks.map fun k => (k.face, k.start + j) := by
    have less := congrArg (List.map (Prod.map id (· - l))) h
    rw [List.map_map, List.map_map] at less
    simpa only [Function.comp_def, Prod.map, id, ← Nat.add_assoc, Nat.add_sub_cancel] using less
  have first {m n : Nat} {a : List Char} {js ks : List Chunk} (comment : Bool)
      (h : js.map (fun k => (k.face, k.start + (n + size a))) =
        ks.map fun k => (k.face, k.start + (m + size a))) :
      (Chunk.trimmed m a comment :: js).map (fun k => (k.face, k.start + n)) =
        (Chunk.trimmed n a comment :: ks).map fun k => (k.face, k.start + m) := by
    rw [List.map_cons, List.map_cons, back h, Chunk.trimmed, Chunk.trimmed, Nat.add_comm m n]
    rfl
  induction h using chunks_induction generalizing m with
  | nil => exact ⟨[], chunks_nil m, rfl⟩
  | skip hc _ _ ih =>
    obtain ⟨js, hjs, same⟩ := ih (m + 1)
    exact ⟨js, (chunks_skip hc).trans hjs, back same⟩
  | comment hc hk _ _ ih =>
    obtain ⟨js, hjs, same⟩ := ih (m + _)
    exact ⟨_, by rw [chunks_of_comment hc hk, hjs]; rfl, first true same⟩
  | statement hc hk hs _ _ ih =>
    obtain ⟨js, hjs, same⟩ := ih (m + _)
    exact ⟨_, by rw [chunks_of_statement hc hk hs, hjs]; rfl, first false same⟩

end

end StyleExports.EsModule
