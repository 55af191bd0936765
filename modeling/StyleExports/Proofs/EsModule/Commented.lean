import StyleExports.Proofs.EsModule.Beside
import StyleExports.Proofs.EsModule.Moved
import StyleExports.Proofs.EsModule.Separate

namespace StyleExports.EsModule

open Text

/-- A blank of a module between two tokens of one of its statements: `p` and `q` are the text in front of
it and behind it, `u` and `w` that of the statement, of which `st` has read `u`. -/
structure InnerBlank (p q : List Char) (before : EsModule) (i : Item) (behind : EsModule)
    (u w : List Char) (st : Scan) : Prop where
  read : ofText? (p ++ ' ' :: q) = .ok (before ++ i :: behind)
  isStatement : i.kind ≠ .comment
  text : i.text = u ++ ' ' :: w
  place : size p = i.start + size u
  state : Scan.start.run? u = some st
  between : Scan.IsOpenMode st.mode

section

variable {p q s u w lead spaces rest : List Char} {before behind : EsModule} {i : Item} {st : Scan}
  {ks js : List Chunk}

theorem InnerBlank.exists_statementAt (h : InnerBlank p q before i behind u w st) :
    ∃ ks js lead spaces rest,
      StatementAt (p ++ ' ' :: q) ks js (u ++ ' ' :: w) lead spaces rest ∧
      p = lead ++ u ∧ q = w ++ (spaces ++ rest) ∧
      ks.map Item.ofChunk = before ∧ js.map Item.ofChunk = behind ∧
      i = Item.ofChunk ⟨size lead, u ++ ' ' :: w, false⟩ := by
  obtain ⟨ls, hls, hm⟩ := ofText?_eq_ok.mp h.read
  obtain ⟨ks, ls, rfl, rfl, hi⟩ := List.map_eq_append_iff.mp hm
  obtain ⟨k, js, rfl, rfl, rfl⟩ := List.map_eq_cons_iff.mp hi
  have statement : k.isComment = false := by
    rw [← Item.kind_ofChunk_beq k]
    exact beq_eq_false_iff_ne.mpr h.isStatement
  obtain ⟨lead, spaces, rest, stands, hk⟩ := EsModule.exists_statementAt hls statement
  have text : k.text = u ++ ' ' :: w := h.text
  rw [text] at stands hk
  -- The text in front of the blank is as long as its place says.
  have place : size p = size (lead ++ u) := by
    rw [h.place, size_append, hk]
    rfl
  have whole : p ++ ' ' :: q = lead ++ u ++ ' ' :: (w ++ (spaces ++ rest)) := by
    rw [stands.whole]
    simp
  obtain rfl : p = lead ++ u := eq_of_size_eq whole place
  exact ⟨ks, js, lead, spaces, rest, stands, rfl, (List.cons.inj (List.append_cancel_left whole)).2,
    rfl, rfl, by rw [← hk]⟩

theorem StatementAt.begins_before (h : StatementAt s ks js (u ++ ' ' :: w) lead spaces rest) :
    ∃ c v, u = c :: v ∧ ¬(isSpace c ∨ c = ';') := by
  obtain ⟨c, t, ht, hc⟩ := h.begins
  cases u with
  | nil =>
    obtain rfl : ' ' = c := (List.cons.inj ht).1
    exact absurd (.inl (by decide)) hc
  | cons d v =>
    obtain rfl : d = c := (List.cons.inj ht).1
    exact ⟨d, v, rfl, hc⟩

theorem size_commented (u w : List Char) : size (u ++ (commentGap ++ w)) = size (u ++ ' ' :: w) + 5 := by
  have comment : size commentGap = 6 := by decide
  have blank : ' '.utf8Size = 1 := by decide
  simp only [size_append, size_cons, comment, blank]
  omega

theorem StatementAt.leads_commented (h : StatementAt s ks js (u ++ ' ' :: w) lead spaces rest) :
    Leads (u ++ (commentGap ++ (w ++ (spaces ++ rest)))) 0 lead ks := by
  have leads := h.leads
  rw [List.append_assoc, List.cons_append] at leads
  obtain ⟨c, v, rfl, hc⟩ := h.begins_before
  have space : isSpace c = false := by simpa using fun hs => hc (.inl hs)
  refine leads.before (d := c) ?_ fun x => ?_
  · rintro rfl
    exact hc (.inl (by decide))
  · -- Which keyword begins is told before the blank.
    have same {y : List Char} (hy : ∀ d ∈ y.head?, isIdentChar d = false) :
        startsStatement (x ++ (c :: v ++ y)) = startsStatement (x ++ c :: v) := by
      rw [← List.append_assoc]
      exact startsStatement_append_of_head (List.mem_append_right x List.mem_cons_self) space hy
    have blank := same (y := ' ' :: (w ++ (spaces ++ rest))) (forall_head?_cons (by decide))
    have comment := same (y := commentGap ++ (w ++ (spaces ++ rest))) (forall_head?_cons (by decide))
    exact blank.trans comment.symm

theorem StatementAt.comment?_commented (h : StatementAt s ks js (u ++ ' ' :: w) lead spaces rest) :
    Chunk.comment? (u ++ (commentGap ++ (w ++ (spaces ++ rest)))) = none := by
  have none := h.comment
  obtain ⟨c, v, rfl, -⟩ := h.begins_before
  refine Chunk.comment?_cons_congr none ?_
  cases v <;> rfl

/-- The beginning of the statement is read up to the blank, and up to the comment. -/
theorem StatementAt.exists_beside (h : StatementAt s ks js (u ++ ' ' :: w) lead spaces rest)
    (hs : Scan.start.run? u = some st) (hm : Scan.IsOpenMode st.mode) :
    ∃ v x, Scan.Beside v x ∧ v.statement (w ++ (spaces ++ rest)) = .ok (w ++ spaces, rest) ∧
      v.divides (w ++ (spaces ++ rest)) = st.divides (w ++ (spaces ++ rest)) ∧
      Scan.Reads Scan.start (u ++ commentGap) (w ++ (spaces ++ rest)) x := by
  have whole := h.statement
  rw [List.append_assoc, List.append_assoc, List.cons_append, List.cons_append] at whole
  generalize w ++ (spaces ++ rest) = q at whole ⊢
  have gap : ∀ c ∈ (' ' :: q).head?, isIdentChar c = false := forall_head?_cons (by decide)
  obtain ⟨st', hr, hst'⟩ := Scan.exists_reads_statement whole (by simp)
  -- The state does not depend on what follows the statement's beginning.
  have alone : Scan.Reads Scan.start u [] st' :=
    hr.exchange fun x => startsStatement_exchange (by simp) gap
  obtain rfl := alone.det (Scan.reads_of_run? hs)
  have before : Scan.Reads Scan.start u (commentGap ++ q) st' :=
    hr.exchange fun x => startsStatement_exchange (forall_head?_cons (by decide)) gap
  obtain ⟨v, x, space, comment, beside, hv⟩ := Scan.exists_beside hm q
  have first : Scan.Reads st' [' '] q v := .cons (space _) .nil
  obtain ⟨d, hd, hstatement⟩ := first.exists_statement hst'
  obtain rfl : w ++ spaces = d := (List.cons.inj hd).2
  refine ⟨v, x, beside, hstatement, ?_, before.append comment⟩
  rw [Scan.divides, Scan.divides, hv, Scan.regexAllowed_space (by decide)]

/-- A comment in the place of a blank between two tokens changes nothing but the text of its statement
and the places behind it, unless a division follows. The form of the statement is the same too, unless
the comment stands right behind the keyword of an import or an export. -/
theorem ofText?_commented (h : InnerBlank p q before i behind u w st) (hd : st.divides q = false) :
    ∃ j, ofText? (p ++ (commentGap ++ q)) = .ok (before ++ j :: behind.map (Item.moved 5)) ∧
      j.text = u ++ (commentGap ++ w) ∧ j.start = i.start ∧ j.stop = i.stop + 5 ∧
      j.kind ≠ .comment ∧
      (trimEnd u ≠ "import".toList → trimEnd u ≠ "export".toList → j.kind.form = i.kind.form) := by
  obtain ⟨ks, js, lead, spaces, rest, stands, rfl, rfl, rfl, rfl, rfl⟩ := h.exists_statementAt
  obtain ⟨v, x, beside, hv, division, reads⟩ := stands.exists_beside h.state h.between
  have statement := reads.statement (beside.statement (division.trans hd) hv)
  have behind := stands.behind
  rw [List.append_assoc, List.cons_append] at behind
  obtain ⟨js', hjs, same⟩ := chunks_moved
    (size lead + size (u ++ commentGap ++ (w ++ spaces))) behind
  rw [List.append_assoc u commentGap, size_commented, ← Nat.add_assoc] at same
  have last : ∀ c ∈ (u ++ (commentGap ++ w)).getLast?, isSpace c = false := by
    have last := stands.last
    rcases List.eq_nil_or_concat' w with rfl | ⟨y, c, rfl⟩
    · exact absurd (last ' ' (by simp)) (by decide)
    · rw [← List.cons_append, ← List.append_assoc] at last
      rw [← List.append_assoc, ← List.append_assoc]
      exact forall_getLast?_concat (last c (by rw [List.getLast?_concat]; rfl))
  have trimmed : dropEndWhile isSpace (u ++ commentGap ++ (w ++ spaces)) = u ++ (commentGap ++ w) := by
    rw [← List.append_assoc, dropEndWhile_append_of_all _ stands.skipped, List.append_assoc,
      dropEndWhile_of_last last]
  have here : chunks (size lead) (u ++ (commentGap ++ (w ++ (spaces ++ rest)))) =
      .ok (⟨size lead, u ++ (commentGap ++ w), false⟩ :: js') := by
    have none := stands.comment?_commented
    obtain ⟨c, y, rfl, hc⟩ := stands.begins_before
    rw [List.append_assoc] at statement
    have read := chunks_of_statement (n := size lead) hc none statement
    rw [hjs, Chunk.trimmed, trimmed] at read
    exact read
  have whole := stands.leads_commented.chunks_append
  rw [Nat.zero_add, here] at whole
  refine ⟨Item.ofChunk ⟨size lead, u ++ (commentGap ++ w), false⟩, ?_, rfl, rfl, ?_, ?_, ?_⟩
  · rw [List.append_assoc]
    refine ofText?_eq_ok.mpr ⟨_, whole, ?_⟩
    rw [List.map_append, List.map_cons, map_ofChunk_moved same]
  · exact congrArg (size lead + ·) (size_commented u w)
  · exact Kind.ofStatement_ne_comment _ _
  · intro himport hexport
    exact Kind.form_ofStatement (forall_head?_cons (by decide)) (forall_head?_cons (by decide))
      himport hexport

/-- The comment stands in front of a regular expression, on a line that goes on with an operand. -/
theorem ofText?_commented_operand : ∃ (p q u w : List Char) (before : EsModule) (i : Item)
    (behind : EsModule) (st : Scan) (j : Item), InnerBlank p q before i behind u w st ∧
    p = "import x from \"y\";\nlet a = b\n  +".toList ∧
    q = "/r/g;\nexport default \x7b a \x7d;".toList ∧ st.divides q = false ∧
    ofText? (p ++ (commentGap ++ q)) = .ok [⟨"import x from \"y\";".toList, 0, 18, .importing⟩, j,
      ⟨"export default \x7b a \x7d;".toList, 44, 65, .exportDefault (some 59)⟩] ∧
    j.text = "let a = b\n  + /**/ /r/g;".toList ∧ j.start = 19 ∧ j.stop = 43 ∧ j.kind.form = .statement := by
  let u := "let a = b\n  +".toList
  let st : Scan := ⟨u.reverse, [], some '+', .plain, 0⟩
  let i : Item := ⟨"let a = b\n  + /r/g;".toList, 19, 38, .statement⟩
  let before : EsModule := [⟨"import x from \"y\";".toList, 0, 18, .importing⟩]
  let behind : EsModule := [⟨"export default \x7b a \x7d;".toList, 39, 60, .exportDefault (some 54)⟩]
  have blank : InnerBlank "import x from \"y\";\nlet a = b\n  +".toList
      "/r/g;\nexport default \x7b a \x7d;".toList before i behind u "/r/g;".toList st :=
    ⟨by decide +kernel, by decide, rfl, by decide +kernel, by decide +kernel, .inl rfl⟩
  have operand : st.divides "/r/g;\nexport default \x7b a \x7d;".toList = false := by decide +kernel
  obtain ⟨j, read, text, start, stop, -, form⟩ := ofText?_commented blank operand
  exact ⟨_, _, u, "/r/g;".toList, before, i, behind, st, j, blank, rfl, rfl, operand, read, text, start,
    stop, form (by decide) (by decide)⟩

/-- In front of a division, which has no other slash behind it on its line, the comment makes it a
regular expression without an end. -/
theorem ofText?_commented_division {g r : List Char} (h : InnerBlank p (g ++ '/' :: r) before i behind u w st)
    (hg : ∀ c ∈ g, isSpace c = true) (hc : Chunk.comment? ('/' :: r) = none)
    (hr : ∀ c ∈ r.takeWhile (· != '\n'), c ≠ '/' ∧ c ≠ '\\') :
    ofText? (p ++ (commentGap ++ (g ++ '/' :: r))) =
      .error (.unterminatedRegex, size (p ++ (commentGap ++ g))) := by
  obtain ⟨ks, js, lead, spaces, rest, stands, rfl, back, -⟩ := h.exists_statementAt
  obtain ⟨v, x, beside, -, -, reads⟩ := stands.exists_beside h.state h.between
  have leads := stands.leads_commented
  have none := stands.comment?_commented
  rw [← back] at reads leads none
  have fault := reads.statement_error (Scan.statement_slash beside.modes.2 beside.regex hg hc hr)
  have offset : x.offset = size (u ++ commentGap) := by
    rw [Scan.offset, reads.before]
    exact (congrArg size (List.append_nil _)).trans (size_reverse _)
  have here : chunks (0 + size lead) (u ++ (commentGap ++ (g ++ '/' :: r))) =
      .error (.unterminatedRegex, size lead + (x.offset + size g)) := by
    obtain ⟨c, y, rfl, hu⟩ := stands.begins_before
    rw [List.append_assoc] at fault
    rw [Nat.zero_add]
    exact chunks_of_statement_error hu none fault
  have place : size (lead ++ u ++ (commentGap ++ g)) = size lead + (x.offset + size g) := by
    simp only [offset, size_append]
    omega
  rw [place, List.append_assoc, ofText?, leads.chunks_append, here]
  rfl

/-- The quotient of two numbers is refused with a comment between them. -/
theorem quotient_hidden_by_comment : ∃ (p q u w : List Char) (i : Item) (st : Scan),
    InnerBlank p q [] i [] u w st ∧ p ++ ' ' :: q = "export const a = 4 / 2;".toList ∧
    p ++ (commentGap ++ q) = "export const a = 4 /**/ / 2;".toList ∧
    ofText? (p ++ (commentGap ++ q)) = .error (.unterminatedRegex, 24) ∧
    ¬∃ m, ofText? (p ++ (commentGap ++ q)) = .ok m ∧ m.length = [i].length := by
  let u := "export const a = 4".toList
  have blank : InnerBlank u ([] ++ '/' :: " 2;".toList) []
      ⟨"export const a = 4 / 2;".toList, 0, 23, .declaration ["a"]⟩ [] u "/ 2;".toList
      ⟨u.reverse, [], some '4', .plain, 0⟩ :=
    ⟨by decide +kernel, by decide, rfl, rfl, by decide +kernel, .inl rfl⟩
  have refused := ofText?_commented_division blank (by simp) (by decide)
    (forall_mem_of_all (by decide))
  refine ⟨u, _, u, _, _, _, blank, rfl, rfl, refused, ?_⟩
  rintro ⟨m, read, -⟩
  rw [refused] at read
  cases read

end

end StyleExports.EsModule
