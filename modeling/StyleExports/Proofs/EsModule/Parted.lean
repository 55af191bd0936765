import StyleExports.Proofs.EsModule.Leads
import StyleExports.Proofs.EsModule.Open
import StyleExports.Proofs.EsModule.Reread

namespace StyleExports.EsModule

open Text

/-- Lines of which none is read together with the next. -/
inductive Parted : List (List Char × Bool) → Prop where
  | nil : Parted []
  | line {s : List Char} {b : Bool} {ls : List (List Char × Bool)} (h : IsLine s b)
      (hl : Parted ls) : Parted ((s, b) :: ls)
  | last {s : List Char} {v : Bool} (h : IsOpen s v) : Parted [(s, false)]
  | broken {s t : List Char} {b : Bool} {ls : List (List Char × Bool)} (h : IsOpen s true)
      (ht : startsStatement t = true) (hl : Parted ((t, b) :: ls)) :
      Parted ((s, false) :: (t, b) :: ls)

theorem startsStatement_append_newline {s : List Char} (h : startsStatement s = true)
    (t : List Char) : startsStatement (s ++ '\n' :: t) = true := by
  obtain ⟨c, u, hs, hc⟩ := exists_of_startsStatement h
  have hm : c ∈ s := (List.dropWhile_suffix isSpace).mem (by rw [hs]; exact List.mem_cons_self)
  rw [startsStatement_append_of_head hm (Scan.isSpace_of_isIdentChar hc) (not_isIdentChar_newline t)]
  exact h

/-- A statement is a line, or it is open and ends the text, or it is complete and a keyword begins
the next line. -/
theorem line_of_statement {c : Char} {s a b : List Char} (hs : ¬(isSpace c ∨ c = ';'))
    (hk : Chunk.comment? (c :: s) = none) (h : Scan.start.statement (c :: s) = .ok (a, b))
    (ha : a ≠ []) :
    startsStatement (dropEndWhile isSpace a) = startsStatement (c :: s) ∧
      (IsLine (dropEndWhile isSpace a) false ∨ ∃ v, IsOpen (dropEndWhile isSpace a) v ∧
        (b = [] ∨ ∃ r, b = '\n' :: r ∧ v = true ∧ startsStatement r = true)) := by
  have hab := Scan.statement_append h
  rcases Scan.statement_cases h with hc | ⟨u, hu, hr, hb⟩
  · obtain ⟨w, rfl⟩ := Scan.exists_of_closes hc
    have trimmed : dropEndWhile isSpace (w ++ [';']) = w ++ [';'] := by
      rw [dropEndWhile_concat, if_neg (by decide)]
    have line := isLine_of_statement hs hk h (by rw [trimmed]; exact hc)
    have key := startsStatement_append (Scan.mem_of_closes hc) b
    rw [trimmed] at line ⊢
    rw [← hab]
    exact ⟨key.symm, .inl line⟩
  · have gap : ∀ d ∈ b.head?, isIdentChar d = false := by
      rcases hb with rfl | ⟨r, rfl, -⟩
      · simp
      · exact not_isIdentChar_newline r
    have opened := isOpen_of_reads hs hk hab ha hu hr gap
    refine ⟨?_, .inr ⟨u.breaks, opened, hb⟩⟩
    obtain ⟨e, he, hae⟩ := exists_dropEndWhile isSpace a
    obtain ⟨d, x, hd, hn, -⟩ := opened.begins
    have behind : ∀ f ∈ (e ++ b).head?, isIdentChar f = false := by
      cases e with
      | nil => exact gap
      | cons f e =>
        exact forall_head?_cons (Scan.isIdentChar_of_isSpace (he f (by simp)))
    have space : isSpace d = false := by simpa using fun hd => hn (.inl hd)
    rw [← hab]
    conv_rhs => rw [hae, List.append_assoc]
    rw [startsStatement_append_of_head (by rw [hd]; exact List.mem_cons_self) space behind]

theorem chunks_of_startsStatement {n : Nat} {s : List Char} {ks : List Chunk}
    (hs : startsStatement s = true) (h : chunks n s = .ok ks) :
    ∃ k js, ks = k :: js ∧ startsStatement k.text = true := by
  induction s generalizing n with
  | nil => exact absurd hs (by decide)
  | cons c s ih =>
    obtain ⟨d, u, hd, hident⟩ := exists_of_startsStatement hs
    by_cases hc : isSpace c = true
    · rw [chunks_skip (.inl hc)] at h
      refine ih ?_ h
      unfold startsStatement at hs ⊢
      rwa [List.dropWhile_cons_of_pos hc] at hs
    rw [List.dropWhile_cons_of_neg hc] at hd
    obtain rfl : c = d := (List.cons.inj hd).1
    have hn : ¬(isSpace c ∨ c = ';') := by
      rintro (hb | rfl)
      · exact hc hb
      · exact absurd hident (by decide)
    obtain ⟨a, b, js, -, hlen, hab, hk⟩ := exists_of_chunks hn h
    rcases hk with ⟨hk, -⟩ | ⟨hk, hst, rfl⟩
    · obtain ⟨t, ht⟩ := Chunk.head_of_comment? hk
      obtain rfl : c = '/' := (List.cons.inj ht).1
      exact absurd hident (by decide)
    · have ha : a ≠ [] := by
        rintro rfl
        simp [← hab] at hlen
      refine ⟨_, js, rfl, ?_⟩
      exact (line_of_statement hn hk hst ha).1.trans hs

/-- The chunks of a module are lines of which none is read together with the next. -/
theorem parted_of_chunks {n : Nat} {s : List Char} {ks : List Chunk} (h : chunks n s = .ok ks) :
    Parted (ks.map Chunk.face) := by
  induction h using chunks_induction with
  | nil => exact .nil
  | skip _ _ _ ih => exact ih
  | comment _ hk _ _ ih => exact .line (isLine_of_comment? hk) ih
  | statement hc hk hs rest _ ih =>
    obtain ⟨-, line | ⟨v, opened, rfl | ⟨r, rfl, rfl, hr⟩⟩⟩ :=
      line_of_statement hc hk hs (List.cons_ne_nil _ _)
    · exact .line line ih
    · rw [chunks_nil] at rest
      cases rest
      exact .last opened
    · rw [chunks_skip (.inl (by decide))] at rest
      obtain ⟨k, is, rfl, hkey⟩ := chunks_of_startsStatement hr rest
      exact .broken opened hkey ih

/-- Lines of which none is read together with the next are read back one by one. -/
theorem chunks_parted {ls : List (List Char × Bool)} (h : Parted ls) (n : Nat) :
    chunks n (ls.flatMap fun l => l.1 ++ ['\n']) = .ok (chunksOfLines n ls) := by
  induction h generalizing n with
  | nil => rw [List.flatMap_nil, chunks, chunksOfLines]
  | line h _ ih =>
    rw [List.flatMap_cons, List.append_assoc, List.singleton_append, chunks_line h, ih]
    rfl
  | last h =>
    rw [List.flatMap_singleton, h.chunks_last]
    rfl
  | @broken s t b ls h ht _ ih =>
    have key : startsStatement (((t, b) :: ls).flatMap fun l => l.1 ++ ['\n']) = true := by
      rw [List.flatMap_cons, List.append_assoc, List.singleton_append]
      exact startsStatement_append_newline ht _
    rw [List.flatMap_cons, List.append_assoc, List.singleton_append, h.chunks_broken key, ih]
    rfl

/-- A kind with the place of a brace counted from the offset `start`. -/
def Kind.relativeTo (start : Nat) : Kind → Kind
  | .exportDefault brace => .exportDefault (brace.map (· - start))
  | k => k

theorem Kind.relativeTo_ofStatement (n : Nat) (s : List Char) :
    (ofStatement (n + size s) s).relativeTo n = ofStatement (size s) s := by
  unfold ofStatement
  cases afterKeyword? "import".toList s with
  | some rest =>
    dsimp only
    split <;> rfl
  | none =>
    cases afterKeyword? "export".toList s with
    | none => rfl
    | some rest =>
      simp only [ofExport]
      cases afterKeyword? "default".toList (trimStart rest) with
      | none =>
        simp only [ofList]
        repeat' split
        all_goals rfl
      | some u =>
        simp only
        split
        · rename_i inner _
          have place : n + size s - size ('{' :: inner) - n = size s - size ('{' :: inner) := by omega
          rw [relativeTo, Option.map_some, place]
        · rfl

namespace Item

/-- All of an item but where it stands. -/
def placeless (i : Item) : List Char × Kind := (i.text, i.kind.relativeTo i.start)

theorem placeless_ofChunk (k : Chunk) : (ofChunk k).placeless =
    (k.text, if k.isComment then .comment else Kind.ofStatement (size k.text) k.text) := by
  unfold placeless ofChunk
  cases k.isComment with
  | true => rfl
  | false => exact congrArg (Prod.mk k.text) (Kind.relativeTo_ofStatement k.start k.text)

end Item

theorem map_placeless_ofChunk (ks : List Chunk) : (ks.map Item.ofChunk).map Item.placeless =
    (ks.map Chunk.face).map
      fun l => (l.1, if l.2 then .comment else Kind.ofStatement (size l.1) l.1) := by
  rw [List.map_map, List.map_map]
  exact List.map_congr_left fun k _ => Item.placeless_ofChunk k

theorem map_placeless_congr {ks js : List Chunk} (h : ks.map Chunk.face = js.map Chunk.face) :
    (ks.map Item.ofChunk).map Item.placeless = (js.map Item.ofChunk).map Item.placeless := by
  rw [map_placeless_ofChunk, map_placeless_ofChunk, h]

theorem face_chunksOfLines (n : Nat) (ls : List (List Char × Bool)) :
    (chunksOfLines n ls).map Chunk.face = ls := by
  induction ls generalizing n with
  | nil => rfl
  | cons l ls ih => rw [chunksOfLines, List.map_cons, ih]; rfl

/-- Whatever is read as a module is read again from its text, item by item: with the same texts, the
same kinds, names and specifiers, and the same places of braces in their items. So the text of what is
read again is the same text. -/
theorem ofText?_printed {s : List Char} {m : EsModule} (h : ofText? s = .ok m) :
    ∃ r, ofText? (toText m) = .ok r ∧ r.map Item.placeless = m.map Item.placeless ∧
      toText r = toText m := by
  obtain ⟨ks, hc, rfl⟩ := ofText?_eq_ok.mp h
  have lines : toText (ks.map Item.ofChunk) =
      (ks.map Chunk.face).flatMap fun l => l.1 ++ ['\n'] := by
    rw [toText_eq_flatMap, List.flatMap_map, List.flatMap_map]
    rfl
  have read := chunks_parted (parted_of_chunks hc) 0
  rw [← lines] at read
  have same := map_placeless_congr (face_chunksOfLines 0 (ks.map Chunk.face))
  have texts (r : EsModule) : (r.map Item.placeless).map Prod.fst = r.map Item.text := by
    rw [List.map_map]
    rfl
  have text := congrArg (List.map Prod.fst) same
  rw [texts, texts] at text
  exact ⟨_, ofText?_eq_ok.mpr ⟨_, read, rfl⟩, same, toText_congr text⟩

/-- No semicolon closes a statement here: a line goes on with a division, a comment stands inside the
default export, and the semicolon stands in a regular expression. -/
theorem ofText?_printed_unclosed : ∃ s m r, ofText? s = .ok m ∧
    m = [⟨"// a".toList, 0, 4, .comment⟩, ⟨"let a = b\n  / c".toList, 5, 20, .statement⟩,
      ⟨"export default \x7b a \x7d\n/* b */".toList, 24, 52, .exportDefault (some 39)⟩,
      ⟨"var r = /[;]'/ // c".toList, 55, 74, .statement⟩] ∧
    toText m =
      "// a\nlet a = b\n  / c\nexport default \x7b a \x7d\n/* b */\nvar r = /[;]'/ // c\n".toList ∧
    ofText? (toText m) = .ok r ∧ r.map Item.placeless = m.map Item.placeless ∧
    toText r = toText m := by
  let s := "// a\nlet a = b\n  / c\n\n  export default \x7b a \x7d\n/* b */ \n var r = /[;]'/ // c"
  let m : EsModule := [⟨"// a".toList, 0, 4, .comment⟩,
    ⟨"let a = b\n  / c".toList, 5, 20, .statement⟩,
    ⟨"export default \x7b a \x7d\n/* b */".toList, 24, 52, .exportDefault (some 39)⟩,
    ⟨"var r = /[;]'/ // c".toList, 55, 74, .statement⟩]
  have hm : ofText? s.toList = .ok m := by decide +kernel
  obtain ⟨r, hr, same, text⟩ := ofText?_printed hm
  exact ⟨s.toList, m, r, hm, rfl, by decide +kernel, hr, same, text⟩

end StyleExports.EsModule
