import StyleExports.EsModule.Chunk
import StyleExports.Proofs.EsModule.Reads

namespace StyleExports.EsModule

open Text

namespace Chunk

theorem comment?_eq_none {c d : Char} {s : List Char} :
    comment? (c :: d :: s) = none ↔ c ≠ '/' ∨ d ≠ '/' ∧ d ≠ '*' := by
  unfold comment?
  split
  · simp_all
  · simp_all
  · rename_i h1 h2
    refine ⟨fun _ => ?_, fun _ => rfl⟩
    by_contra hn
    simp only [not_or, not_and_or, not_not] at hn
    obtain ⟨rfl, rfl | rfl⟩ := hn
    · exact h1 s rfl
    · exact h2 s rfl

theorem comment?_singleton (c : Char) : comment? [c] = none := by
  unfold comment?
  split <;> simp_all

theorem comment?_of_append {s t : List Char} (h : comment? (s ++ t) = none) : comment? s = none := by
  match s, h with
  | [], _ => rfl
  | [c], _ => exact comment?_singleton c
  | c :: d :: s, h => exact comment?_eq_none.mpr (comment?_eq_none.mp h)

theorem commentRest?_concat {star : Bool} {s a b : List Char}
    (h : commentRest? star s = some (a, b)) :
    (∃ u, a = u ++ ['/']) ∧ ∀ t, commentRest? star (a ++ t) = some (a, t) := by
  induction s generalizing star a b with
  | nil => simp [commentRest?] at h
  | cons c s ih =>
    unfold commentRest? at h
    by_cases hc : (star && c == '/') = true
    · simp only [if_pos hc, Option.some.injEq, Prod.mk.injEq] at h
      have hs : c = '/' := by simp_all
      refine ⟨⟨[], by rw [← h.1, hs]; rfl⟩, fun t => ?_⟩
      rw [← h.1, List.singleton_append, commentRest?, if_pos hc]
    · simp only [if_neg hc, Option.map_eq_some_iff, Prod.mk.injEq, Prod.exists] at h
      obtain ⟨a', b', h, rfl, rfl⟩ := h
      obtain ⟨⟨u, rfl⟩, ht⟩ := ih h
      refine ⟨⟨c :: u, rfl⟩, fun t => ?_⟩
      rw [List.cons_append, commentRest?, if_neg hc, ht]
      rfl

end Chunk

/-- A text that is one chunk on a line of its own: a comment without blanks after it, or a
statement that a semicolon closes. -/
inductive IsLine : List Char → Bool → Prop where
  | comment {s : List Char} (hc : Chunk.comment? s = some (some (s, [])))
      (ht : dropEndWhile isSpace s = s) : IsLine s true
  | statement {c : Char} {s : List Char} (hs : ¬(isSpace c ∨ c = ';'))
      (hc : Chunk.comment? (c :: s) = none) (h : Scan.start.closes (c :: s) = true) :
      IsLine (c :: s) false

theorem isLine_of_closes {c : Char} {s : List Char} (hs : s.head? = some c)
    (hb : isSpace c = false) (hsemi : c ≠ ';') (hslash : c ≠ '/')
    (h : Scan.start.closes s = true) : IsLine s false := by
  match s, hs with
  | [d], rfl => exact .statement (by simp [hb, hsemi]) (Chunk.comment?_singleton d) h
  | d :: e :: s, rfl =>
    exact .statement (by simp [hb, hsemi]) (Chunk.comment?_eq_none.mpr (.inl hslash)) h

section

variable {n : Nat} {c : Char} {s a b : List Char}

theorem chunks_nil (n : Nat) : chunks n [] = .ok [] := by rw [chunks]

/-- One step of reading, without what bounds the recursion. -/
theorem chunks_cons (n : Nat) (c : Char) (s : List Char) : chunks n (c :: s) =
    if isSpace c ∨ c = ';' then chunks (n + 1) s
    else
      match Chunk.comment? (c :: s) with
      | some none => .error (.unterminatedComment, n)
      | some (some (a, b)) => (chunks (n + size a) b).map (Chunk.trimmed n a true :: ·)
      | none =>
        match Scan.start.statement (c :: s) with
        | .error (f, k) => .error (f, n + k)
        | .ok (a, b) => (chunks (n + size a) b).map (Chunk.trimmed n a false :: ·) := by
  rw [chunks, dite_eq_ite]
  congr 1
  split
  · simp_all
  · simp_all
  · split <;> simp_all

theorem chunks_skip (hc : isSpace c ∨ c = ';') : chunks n (c :: s) = chunks (n + 1) s := by
  rw [chunks_cons, if_pos hc]

theorem chunks_of_comment (hc : ¬(isSpace c ∨ c = ';'))
    (h : Chunk.comment? (c :: s) = some (some (a, b))) :
    chunks n (c :: s) = (chunks (n + size a) b).map (Chunk.trimmed n a true :: ·) := by
  rw [chunks_cons, if_neg hc, h]

theorem chunks_of_statement (hc : ¬(isSpace c ∨ c = ';')) (hk : Chunk.comment? (c :: s) = none)
    (h : Scan.start.statement (c :: s) = .ok (a, b)) :
    chunks n (c :: s) = (chunks (n + size a) b).map (Chunk.trimmed n a false :: ·) := by
  rw [chunks_cons, if_neg hc, hk, h]

theorem chunks_of_comment_error (hc : ¬(isSpace c ∨ c = ';'))
    (h : Chunk.comment? (c :: s) = some none) :
    chunks n (c :: s) = .error (.unterminatedComment, n) := by
  rw [chunks_cons, if_neg hc, h]

theorem chunks_of_statement_error {f : Fault} {k : Nat} (hc : ¬(isSpace c ∨ c = ';'))
    (hk : Chunk.comment? (c :: s) = none) (h : Scan.start.statement (c :: s) = .error (f, k)) :
    chunks n (c :: s) = .error (f, n + k) := by
  rw [chunks_cons, if_neg hc, hk, h]

end

theorem exists_of_chunks {n : Nat} {c : Char} {s : List Char} {ks : List Chunk}
    (hc : ¬(isSpace c ∨ c = ';')) (h : chunks n (c :: s) = .ok ks) :
    ∃ a b js, chunks (n + size a) b = .ok js ∧ b.length < (c :: s).length ∧ a ++ b = c :: s ∧
      ((Chunk.comment? (c :: s) = some (some (a, b)) ∧ ks = .trimmed n a true :: js) ∨
        (Chunk.comment? (c :: s) = none ∧ Scan.start.statement (c :: s) = .ok (a, b) ∧
          ks = .trimmed n a false :: js)) := by
  have map {e : Except Scan.Placed (List Chunk)} {k : Chunk} (h : e.map (k :: ·) = .ok ks) :
      ∃ js, e = .ok js ∧ ks = k :: js := by
    cases e with
    | error f => simp [Except.map] at h
    | ok js => exact ⟨js, rfl, (Except.ok.inj h).symm⟩
  have line : c ≠ '\n' := by
    rintro rfl
    exact hc (.inl rfl)
  cases hk : Chunk.comment? (c :: s) with
  | some r =>
    cases r with
    | none =>
      rw [chunks_of_comment_error hc hk] at h
      cases h
    | some ab =>
      obtain ⟨a, b⟩ := ab
      rw [chunks_of_comment hc hk] at h
      obtain ⟨js, hjs, rfl⟩ := map h
      exact ⟨a, b, js, hjs, Chunk.length_of_comment? hk, Chunk.comment?_append hk, .inl ⟨rfl, rfl⟩⟩
  | none =>
    cases hs : Scan.start.statement (c :: s) with
    | error e =>
      obtain ⟨f, k⟩ := e
      rw [chunks_of_statement_error hc hk hs] at h
      cases h
    | ok ab =>
      obtain ⟨a, b⟩ := ab
      rw [chunks_of_statement hc hk hs] at h
      obtain ⟨js, hjs, rfl⟩ := map h
      exact ⟨a, b, js, hjs, Chunk.length_of_statement line hs, Scan.statement_append hs,
        .inr ⟨rfl, rfl, rfl⟩⟩

/-- What is read goes over a blank or a stray semicolon, a comment, or a statement, and then over the rest.
So what holds of a text without chunks and is kept by each of these steps holds of every text that is
read. -/
@[elab_as_elim]
theorem chunks_induction
    {motive : (n : Nat) → (s : List Char) → (ks : List Chunk) → chunks n s = .ok ks → Prop}
    (nil : ∀ {n : Nat} (h : chunks n [] = .ok []), motive n [] [] h)
    (skip : ∀ {n : Nat} {c : Char} {s : List Char} {ks : List Chunk} (_ : isSpace c ∨ c = ';')
      (rest : chunks (n + 1) s = .ok ks) (h : chunks n (c :: s) = .ok ks),
      motive (n + 1) s ks rest → motive n (c :: s) ks h)
    (comment : ∀ {n : Nat} {c : Char} {a b : List Char} {ks : List Chunk}
      (_ : ¬(isSpace c ∨ c = ';')) (_ : Chunk.comment? (c :: (a ++ b)) = some (some (c :: a, b)))
      (rest : chunks (n + size (c :: a)) b = .ok ks)
      (h : chunks n (c :: (a ++ b)) = .ok (.trimmed n (c :: a) true :: ks)),
      motive (n + size (c :: a)) b ks rest →
        motive n (c :: (a ++ b)) (.trimmed n (c :: a) true :: ks) h)
    (statement : ∀ {n : Nat} {c : Char} {a b : List Char} {ks : List Chunk}
      (_ : ¬(isSpace c ∨ c = ';')) (_ : Chunk.comment? (c :: (a ++ b)) = none)
      (_ : Scan.start.statement (c :: (a ++ b)) = .ok (c :: a, b))
      (rest : chunks (n + size (c :: a)) b = .ok ks)
      (h : chunks n (c :: (a ++ b)) = .ok (.trimmed n (c :: a) false :: ks)),
      motive (n + size (c :: a)) b ks rest →
        motive n (c :: (a ++ b)) (.trimmed n (c :: a) false :: ks) h)
    {n : Nat} {s : List Char} {ks : List Chunk} (h : chunks n s = .ok ks) : motive n s ks h := by
  -- Every chunk, and every blank before one, leaves a shorter text.
  induction hl : s.length using Nat.strong_induction_on generalizing n s ks with
  | _ l ih =>
    subst hl
    cases s with
    | nil =>
      obtain rfl : [] = ks := Except.ok.inj ((chunks_nil n).symm.trans h)
      exact nil h
    | cons c s =>
      by_cases hc : isSpace c ∨ c = ';'
      · have rest := (chunks_skip hc).symm.trans h
        exact skip hc rest h (ih s.length (by simp) rest rfl)
      obtain ⟨a, b, js, hjs, hlen, hab, hk⟩ := exists_of_chunks hc h
      have later := ih b.length hlen hjs rfl
      cases a with
      | nil => simp [← hab] at hlen
      | cons d a =>
        obtain ⟨rfl, rfl⟩ := List.cons.inj hab
        rcases hk with ⟨hk, rfl⟩ | ⟨hk, hs, rfl⟩
        · exact comment hc hk hjs h later
        · exact statement hc hk hs hjs h later

theorem chunks_error_cases {n k : Nat} {c : Char} {s : List Char} {f : Fault}
    (hc : ¬(isSpace c ∨ c = ';')) (h : chunks n (c :: s) = .error (f, k)) :
    (Chunk.comment? (c :: s) = some none ∧ f = .unterminatedComment ∧ k = n) ∨
    (∃ j, Chunk.comment? (c :: s) = none ∧ Scan.start.statement (c :: s) = .error (f, j) ∧
      k = n + j) ∨
    ∃ a b, chunks (n + size a) b = .error (f, k) ∧ b.length < (c :: s).length ∧ a ++ b = c :: s ∧
      (Chunk.comment? (c :: s) = some (some (a, b)) ∨
        Chunk.comment? (c :: s) = none ∧ Scan.start.statement (c :: s) = .ok (a, b)) := by
  have rest {e : Except Scan.Placed (List Chunk)} {j : Chunk}
      (h : e.map (j :: ·) = .error (f, k)) : e = .error (f, k) := by
    cases e with
    | error g => exact h
    | ok ks => simp [Except.map] at h
  have line : c ≠ '\n' := by
    rintro rfl
    exact hc (.inl rfl)
  cases hk : Chunk.comment? (c :: s) with
  | some r =>
    cases r with
    | none =>
      rw [chunks_of_comment_error hc hk] at h
      cases h
      exact .inl ⟨rfl, rfl, rfl⟩
    | some ab =>
      obtain ⟨a, b⟩ := ab
      rw [chunks_of_comment hc hk] at h
      exact .inr (.inr ⟨a, b, rest h, Chunk.length_of_comment? hk, Chunk.comment?_append hk, .inl rfl⟩)
  | none =>
    cases hs : Scan.start.statement (c :: s) with
    | error e =>
      obtain ⟨g, j⟩ := e
      rw [chunks_of_statement_error hc hk hs] at h
      cases h
      exact .inr (.inl ⟨j, rfl, rfl, rfl⟩)
    | ok ab =>
      obtain ⟨a, b⟩ := ab
      rw [chunks_of_statement hc hk hs] at h
      exact .inr (.inr ⟨a, b, rest h, Chunk.length_of_statement line hs, Scan.statement_append hs,
        .inr ⟨rfl, rfl⟩⟩)

/-- What is refused has its fault in a comment or a statement, behind blanks, stray semicolons, comments and
statements. So what holds of a text that begins with the fault and is kept by each step in front of it
holds of every text that is refused. -/
@[elab_as_elim]
theorem chunks_fault_induction {f : Fault}
    {motive : (n : Nat) → (s : List Char) → (k : Nat) → chunks n s = .error (f, k) → Prop}
    (inComment : ∀ {n : Nat} {c : Char} {s : List Char} (_ : ¬(isSpace c ∨ c = ';'))
      (_ : Chunk.comment? (c :: s) = some none) (_ : f = .unterminatedComment)
      (h : chunks n (c :: s) = .error (f, n)), motive n (c :: s) n h)
    (inStatement : ∀ {n j : Nat} {c : Char} {s : List Char} (_ : ¬(isSpace c ∨ c = ';'))
      (_ : Chunk.comment? (c :: s) = none) (_ : Scan.start.statement (c :: s) = .error (f, j))
      (h : chunks n (c :: s) = .error (f, n + j)), motive n (c :: s) (n + j) h)
    (skip : ∀ {n k : Nat} {c : Char} {s : List Char} (_ : isSpace c ∨ c = ';')
      (rest : chunks (n + 1) s = .error (f, k)) (h : chunks n (c :: s) = .error (f, k)),
      motive (n + 1) s k rest → motive n (c :: s) k h)
    (comment : ∀ {n k : Nat} {c : Char} {a b : List Char} (_ : ¬(isSpace c ∨ c = ';'))
      (_ : Chunk.comment? (c :: (a ++ b)) = some (some (c :: a, b)))
      (rest : chunks (n + size (c :: a)) b = .error (f, k))
      (h : chunks n (c :: (a ++ b)) = .error (f, k)),
      motive (n + size (c :: a)) b k rest → motive n (c :: (a ++ b)) k h)
    (statement : ∀ {n k : Nat} {c : Char} {a b : List Char} (_ : ¬(isSpace c ∨ c = ';'))
      (_ : Chunk.comment? (c :: (a ++ b)) = none)
      (_ : Scan.start.statement (c :: (a ++ b)) = .ok (c :: a, b))
      (rest : chunks (n + size (c :: a)) b = .error (f, k))
      (h : chunks n (c :: (a ++ b)) = .error (f, k)),
      motive (n + size (c :: a)) b k rest → motive n (c :: (a ++ b)) k h)
    {n : Nat} {s : List Char} {k : Nat} (h : chunks n s = .error (f, k)) : motive n s k h := by
  -- As in `chunks_induction`, what is behind a step is shorter.
  induction hl : s.length using Nat.strong_induction_on generalizing n s with
  | _ l ih =>
    subst hl
    cases s with
    | nil => simp [chunks_nil] at h
    | cons c s =>
      by_cases hc : isSpace c ∨ c = ';'
      · have rest := (chunks_skip hc).symm.trans h
        exact skip hc rest h (ih s.length (by simp) rest rfl)
      rcases chunks_error_cases hc h with ⟨hk, hf, rfl⟩ | ⟨j, hk, hs, rfl⟩ | ⟨a, b, hb, hlen, hab, first⟩
      · exact inComment hc hk hf h
      · exact inStatement hc hk hs h
      · have later := ih b.length hlen hb rfl
        cases a with
        | nil => simp [← hab] at hlen
        | cons d a =>
          obtain ⟨rfl, rfl⟩ := List.cons.inj hab
          rcases first with hk | ⟨hk, hs⟩
          · exact comment hc hk hb h later
          · exact statement hc hk hs hb h later

theorem comment_line_append {s t : List Char} (h : Chunk.comment? s = some (some (s, []))) :
    Chunk.comment? (s ++ '\n' :: t) = some (some (s, '\n' :: t)) := by
  unfold Chunk.comment? at h
  split at h
  · rename_i s
    simp only [Option.some.injEq, Prod.mk.injEq, List.cons.injEq, true_and] at h
    have hall : ∀ c ∈ s, (c != '\n') = true := List.dropWhile_eq_nil_iff.mp h.2
    simp [Chunk.comment?, List.takeWhile_append_of_pos hall, List.dropWhile_append_of_pos hall]
  · rename_i s
    simp only [Option.some.injEq, Option.map_eq_some_iff, Prod.mk.injEq, Prod.exists,
      List.cons.injEq, true_and] at h
    obtain ⟨a, b, h, rfl, rfl⟩ := h
    simp [Chunk.comment?, (Chunk.commentRest?_concat h).2 ('\n' :: t)]
  · simp at h

/-- A line is read as the chunk that it is, and what follows it for itself. -/
theorem chunks_line {s : List Char} {b : Bool} (h : IsLine s b) (n : Nat) (t : List Char) :
    chunks n (s ++ '\n' :: t) = (chunks (n + size s + 1) t).map (⟨n, s, b⟩ :: ·) := by
  cases h with
  | comment hc ht =>
    obtain ⟨c, u, rfl⟩ : ∃ c u, s = c :: u := by
      cases s with
      | nil => simp [Chunk.comment?] at hc
      | cons c u => exact ⟨c, u, rfl⟩
    have hn : ¬(isSpace c ∨ c = ';') := by
      have hs : c = '/' := by
        unfold Chunk.comment? at hc
        split at hc <;> simp_all
      subst hs
      decide
    have hk : Chunk.comment? (c :: (u ++ '\n' :: t)) = some (some (c :: u, '\n' :: t)) :=
      comment_line_append hc
    rw [List.cons_append, chunks_of_comment hn hk, chunks_skip (.inl (by decide)), Chunk.trimmed, ht]
  | @statement c u hs hc h =>
    have hst := Scan.statement_of_closes h ('\n' :: t)
    have hk : Chunk.comment? (c :: (u ++ '\n' :: t)) = none := by
      cases u with
      | nil =>
        obtain ⟨v, hv⟩ := Scan.exists_of_closes h
        cases v with
        | nil => simp_all
        | cons d v => simp at hv
      | cons d u => exact Chunk.comment?_eq_none.mpr (Chunk.comment?_eq_none.mp hc)
    obtain ⟨v, hv⟩ := Scan.exists_of_closes h
    have ht : dropEndWhile isSpace (c :: u) = c :: u := by
      rw [hv, dropEndWhile_concat, if_neg (by decide)]
    rw [List.cons_append, chunks_of_statement hs hk hst, chunks_skip (.inl (by decide)),
      Chunk.trimmed, ht]

def chunksOfLines : Nat → List (List Char × Bool) → List Chunk
  | _, [] => []
  | n, (s, b) :: ls => ⟨n, s, b⟩ :: chunksOfLines (n + size s + 1) ls

theorem chunks_lines {ls : List (List Char × Bool)} (h : ∀ l ∈ ls, IsLine l.1 l.2) (n : Nat) :
    chunks n (ls.flatMap fun l => l.1 ++ ['\n']) = .ok (chunksOfLines n ls) := by
  induction ls generalizing n with
  | nil => rw [List.flatMap_nil, chunks_nil, chunksOfLines]
  | cons l ls ih =>
    rw [List.flatMap_cons, List.append_assoc, List.singleton_append,
      chunks_line (h l List.mem_cons_self), ih fun m hm => h m (List.mem_cons_of_mem _ hm)]
    rfl

theorem isLine_of_comment? {s a b : List Char} (h : Chunk.comment? s = some (some (a, b))) :
    IsLine (dropEndWhile isSpace a) true := by
  have slash (u : List Char) : dropEndWhile isSpace ('/' :: u) = '/' :: dropEndWhile isSpace u := by
    rw [dropEndWhile]
    cases dropEndWhile isSpace u <;> rfl
  refine .comment ?_ (dropEndWhile_idem _ _)
  unfold Chunk.comment? at h
  split at h
  · rename_i s
    simp only [Option.some.injEq, Prod.mk.injEq] at h
    obtain ⟨e, -, he⟩ := exists_dropEndWhile isSpace (s.takeWhile (· != '\n'))
    have hall : ∀ c ∈ dropEndWhile isSpace (s.takeWhile (· != '\n')), (c != '\n') = true := by
      intro c hc
      have hm : c ∈ s.takeWhile (· != '\n') := by
        rw [he]
        exact List.mem_append_left e hc
      exact List.mem_takeWhile_imp (p := (· != '\n')) hm
    rw [← h.1, slash, slash, Chunk.comment?, List.takeWhile_eq_self_iff.mpr hall,
      List.dropWhile_eq_nil_iff.mpr hall]
  · simp only [Option.some.injEq, Option.map_eq_some_iff, Prod.mk.injEq, Prod.exists] at h
    obtain ⟨a', b', h, rfl, rfl⟩ := h
    obtain ⟨⟨u, rfl⟩, ht⟩ := Chunk.commentRest?_concat h
    have hd : dropEndWhile isSpace ('/' :: '*' :: (u ++ ['/'])) = '/' :: '*' :: (u ++ ['/']) :=
      dropEndWhile_concat isSpace ('/' :: '*' :: u) '/'
    have hr := ht []
    rw [List.append_nil] at hr
    rw [hd, Chunk.comment?, hr]
    rfl
  · simp at h

theorem isLine_of_statement {c : Char} {s a b : List Char} (hs : ¬(isSpace c ∨ c = ';'))
    (hk : Chunk.comment? (c :: s) = none) (h : Scan.start.statement (c :: s) = .ok (a, b))
    (hc : Scan.start.closes (dropEndWhile isSpace a) = true) :
    IsLine (dropEndWhile isSpace a) false := by
  obtain ⟨e, -, he⟩ := exists_dropEndWhile isSpace a
  have hab := Scan.statement_append h
  rw [he, List.append_assoc] at hab
  cases hd : dropEndWhile isSpace a with
  | nil => simp [hd, Scan.closes] at hc
  | cons d u =>
    rw [hd] at hab hc
    have hcd : d = c := (List.cons.inj hab).1
    refine .statement (hcd ▸ hs) ?_ hc
    rw [← hab] at hk
    exact Chunk.comment?_of_append hk

/-- The comments of a module are lines, and so are the statements that a semicolon closes. -/
theorem isLine_of_mem_chunks {n : Nat} {s : List Char} {ks : List Chunk}
    (h : chunks n s = .ok ks) : ∀ k ∈ ks,
      k.isComment = true ∨ Scan.start.closes k.text = true → IsLine k.text k.isComment := by
  induction h using chunks_induction with
  | nil => simp
  | skip _ _ _ ih => exact ih
  | comment _ hk _ _ ih =>
    rw [List.forall_mem_cons]
    exact ⟨fun _ => isLine_of_comment? hk, ih⟩
  | statement hc hk hs _ _ ih =>
    rw [List.forall_mem_cons]
    refine ⟨fun closed => ?_, ih⟩
    exact isLine_of_statement hc hk hs (closed.resolve_left (by simp [Chunk.trimmed]))

end StyleExports.EsModule
