import StyleExports.Proofs.EsModule.Beside
import StyleExports.Proofs.EsModule.Moved
import StyleExports.Proofs.EsModule.Parted
import StyleExports.Proofs.Text.Position
import StyleExports.Synthesis

namespace StyleExports

open Text

/-- An error of a module that stands on the lines behind another text. -/
def Error.behind (s : List Char) : Error → Error
  | .badModule fault place => .badModule fault (place.behind s)
  | e => e

namespace EsModule

variable {n k : Nat} {s t r a b : List Char} {ks : List Chunk} {f : Fault}

namespace Scan

variable {st u : Scan}

/-- A statement that ends in front of the end of a text, or with a semicolon, ends there before another
line. -/
theorem statement_seam (h : st.statement s = .ok (a, b)) (hb : b = [] → st.closes a = true)
    (t : List Char) : st.statement (a ++ (b ++ '\n' :: t)) = .ok (a, b ++ '\n' :: t) := by
  rcases statement_cases h with closed | ⟨u, hu, hr, rfl | ⟨r, rfl, breaks, key⟩⟩
  · exact statement_of_closes closed _
  · exact statement_of_closes (hb rfl) _
  · obtain ⟨d, x, hd, hi⟩ := exists_of_startsStatement key
    have mem : d ∈ r := (List.dropWhile_suffix isSpace).mem (by rw [hd]; exact List.mem_cons_self)
    have same (y : List Char) (hs : startsStatement (y ++ ('\n' :: r ++ '\n' :: t)) = true) :
        startsStatement (y ++ '\n' :: r) = true := by
      have inside : d ∈ y ++ '\n' :: r := List.mem_append_right y (List.mem_cons_of_mem _ mem)
      rwa [← List.append_assoc, startsStatement_append_of_head inside (isSpace_of_isIdentChar hi)
        (not_isIdentChar_newline t)] at hs
    have ends := step_newline_ends hr breaks (startsStatement_append_newline key t)
    have rest : u.statement ('\n' :: r ++ '\n' :: t) = .ok ([], '\n' :: r ++ '\n' :: t) :=
      statement_cons.mpr (.inr (.inl ⟨ends, rfl, rfl⟩))
    have whole := (hu.exchange same).statement rest
    rwa [List.append_nil] at whole

theorem closes_of_trimmed (h : st.statement s = .ok (a, b))
    (hc : st.closes (dropEndWhile isSpace a) = true) : st.closes a = true := by
  obtain ⟨e, -, he⟩ := exists_dropEndWhile isSpace a
  have whole := statement_of_closes hc (e ++ b)
  rw [← List.append_assoc, ← he, statement_append h, h, Except.ok.injEq, Prod.mk.injEq] at whole
  rwa [← whole.1] at hc

end Scan

theorem Chunk.comment?_seam (h : comment? (a ++ b) = some (some (a, b))) (t : List Char) :
    comment? (a ++ (b ++ '\n' :: t)) = some (some (a, b ++ '\n' :: t)) := by
  cases b with
  | nil =>
    rw [List.append_nil] at h
    exact comment_line_append h
  | cons c b => exact comment?_congr h rfl

theorem Chunk.comment?_cons_seam {c : Char} (h : comment? (c :: s) = none) (t : List Char) :
    comment? (c :: (s ++ '\n' :: t)) = none := by
  cases s with
  | nil => exact comment?_eq_none.mpr (.inr ⟨by decide, by decide⟩)
  | cons d s => exact comment?_cons_congr h rfl

/-- Nothing behind the end of a module is read with its last chunk, if that is a comment or closed by a
semicolon. -/
theorem leads_seam (h : chunks n s = .ok ks)
    (hk : ∀ k ∈ ks.getLast?, k.isComment = true ∨ Scan.start.closes k.text = true) (t : List Char) :
    Leads ('\n' :: t) n s ks := by
  have last {k : Chunk} {js : List Chunk}
      (h : ∀ j ∈ (k :: js).getLast?, j.isComment = true ∨ Scan.start.closes j.text = true) :
      ∀ j ∈ js.getLast?, j.isComment = true ∨ Scan.start.closes j.text = true := by
    intro j hj
    refine h j ?_
    rw [List.getLast?_cons, Option.mem_def.mp hj]
    rfl
  induction h using chunks_induction with
  | nil => exact .nil
  | skip hc _ _ ih => exact .skip hc (ih hk)
  | comment _ comment _ _ ih => exact .comment (Chunk.comment?_seam comment t) (ih (last hk))
  | @statement n c a b js hc none statement rest _ ih =>
    have closed : b = [] → Scan.start.closes (c :: a) = true := by
      rintro rfl
      rw [chunks_nil] at rest
      cases rest
      have trimmed := (hk _ rfl).resolve_left (by simp [Chunk.trimmed])
      exact Scan.closes_of_trimmed statement trimmed
    have before := Chunk.comment?_cons_seam none t
    rw [List.append_assoc] at before
    exact .statement hc before (Scan.statement_seam statement closed t) (ih (last hk))

/-- The chunks of a module, and then those of the lines behind it. -/
theorem chunks_seam (h : chunks n s = .ok ks)
    (hk : ∀ k ∈ ks.getLast?, k.isComment = true ∨ Scan.start.closes k.text = true) (t : List Char) :
    chunks n (s ++ '\n' :: t) = (chunks (n + size s + 1) t).map (ks ++ ·) := by
  rw [(leads_seam h hk t).chunks_append, chunks_skip (.inl (by decide))]

theorem chunks_fault_moved (h : chunks n s = .error (f, k)) :
    ∃ p, k = n + p ∧ ∀ m, chunks m s = .error (f, m + p) := by
  induction h using chunks_fault_induction with
  | inComment hc comment fault =>
    subst fault
    exact ⟨0, rfl, fun m => chunks_of_comment_error hc comment⟩
  | @inStatement n j c s hc none fault => exact ⟨j, rfl, fun m => chunks_of_statement_error hc none fault⟩
  | skip hc _ _ ih =>
    obtain ⟨p, rfl, hp⟩ := ih
    exact ⟨1 + p, Nat.add_assoc .., fun m => by rw [chunks_skip hc, hp, Nat.add_assoc]⟩
  | @comment n k c a b hc comment _ _ ih =>
    obtain ⟨p, rfl, hp⟩ := ih
    refine ⟨size (c :: a) + p, Nat.add_assoc .., fun m => ?_⟩
    rw [chunks_of_comment hc comment, hp, Nat.add_assoc]
    rfl
  | @statement n k c a b hc none statement _ _ ih =>
    obtain ⟨p, rfl, hp⟩ := ih
    refine ⟨size (c :: a) + p, Nat.add_assoc .., fun m => ?_⟩
    rw [chunks_of_statement hc none statement, hp, Nat.add_assoc]
    rfl

theorem readModule_eq_ok {m : EsModule} :
    Synthesis.readModule s = .ok m ↔ ofText? s = .ok m := by
  rw [Synthesis.readModule]
  cases ofText? s with
  | ok r => exact ⟨fun h => congrArg _ (Except.ok.inj h), fun h => congrArg _ (Except.ok.inj h)⟩
  | error e => simp

/-- Behind a module that ends with a comment or a semicolon, or that has no items, a text on the next line is
read as it is for itself: the items of both are those of the module and then those of the text, and a fault
of the text is the fault of both. Only ranges, braces and places are as much further on as the module is
long. -/
theorem readModule_seam {m : EsModule} (h : Synthesis.readModule s = .ok m)
    (hm : ∀ i ∈ m.getLast?, i.isTerminated = true) (t : List Char) :
    Synthesis.readModule (s ++ '\n' :: t) =
      match Synthesis.readModule t with
      | .ok r => .ok (m ++ r.map (Item.moved (size s + 1)))
      | .error e => .error (e.behind s) := by
  obtain ⟨ks, hks, rfl⟩ := ofText?_eq_ok.mp (readModule_eq_ok.mp h)
  have last : ∀ k ∈ ks.getLast?, k.isComment = true ∨ Scan.start.closes k.text = true := by
    intro k hk
    have here := hm (Item.ofChunk k) (by rw [List.getLast?_map, Option.mem_def.mp hk]; rfl)
    rwa [Item.isTerminated, Item.kind_ofChunk_beq, Bool.or_eq_true] at here
  have seam := chunks_seam hks last t
  rw [Nat.zero_add] at seam
  cases ht : chunks 0 t with
  | ok ls =>
    obtain ⟨js, hjs, same⟩ := chunks_moved (size s + 1) ht
    have moved := map_ofChunk_moved (m := 0) (n := size s + 1) (by rwa [Nat.zero_add])
    have second : ofText? t = .ok (ls.map Item.ofChunk) := ofText?_eq_ok.mpr ⟨ls, ht, rfl⟩
    have both : ofText? (s ++ '\n' :: t) = .ok ((ks ++ js).map Item.ofChunk) :=
      ofText?_eq_ok.mpr ⟨ks ++ js, by rw [seam, hjs]; rfl, rfl⟩
    rw [readModule_eq_ok.mpr second, readModule_eq_ok.mpr both, List.map_append, moved]
  | error e =>
    obtain ⟨f, k⟩ := e
    obtain ⟨p, rfl, hp⟩ := chunks_fault_moved ht
    have second : ofText? t = .error (f, p) := by rw [ofText?, hp, Nat.zero_add]; rfl
    have both : ofText? (s ++ '\n' :: t) = .error (f, size s + 1 + p) := by
      rw [ofText?, seam, hp]
      rfl
    rw [Synthesis.readModule, both, Synthesis.readModule, second]
    simp only [Position.ofOffset_behind]
    rfl

/-- The first text ends with a comment behind a statement. What follows is a module, or has the fault of a
bracket that closes another kind, in the second column of its second line. -/
theorem readModule_seam_comment :
    let s := "import a from \"x\";\n/* b */ ".toList
    let m : EsModule := [⟨"import a from \"x\";".toList, 0, 18, .importing⟩,
      ⟨"/* b */".toList, 19, 26, .comment⟩]
    Synthesis.readModule s = .ok m ∧ (∀ i ∈ m.getLast?, i.isTerminated = true) ∧
    Synthesis.readModule (s ++ '\n' :: "/r/;export default \x7b a \x7d".toList) =
      .ok (m ++ [⟨"/r/;".toList, 28, 32, .statement⟩,
        ⟨"export default \x7b a \x7d".toList, 32, 52, .exportDefault (some 47)⟩]) ∧
    Synthesis.readModule (s ++ '\n' :: "f\n(])".toList) =
      .error (.badModule (.unexpected ']') ⟨31, 4, 2⟩) := by
  intro s m
  have read : Synthesis.readModule s = .ok m := by decide +kernel
  have ends : ∀ i ∈ m.getLast?, i.isTerminated = true := by decide +kernel
  have seam := readModule_seam read ends
  refine ⟨read, ends, (seam _).trans ?_, (seam _).trans ?_⟩
  · decide +kernel
  · decide +kernel

end EsModule

end StyleExports
