import StyleExports.Proofs.EsModule.Leads
import StyleExports.Proofs.Fragment
import StyleExports.Proofs.Text.Place
import StyleExports.Synthesis

namespace StyleExports

open Text EsModule

namespace EsModule

/-- A default export of an object among the chunks of a text: what stands in front of it, the blanks
behind its keywords, its text behind the brace, and what stands behind it. -/
structure DefaultAt (s : List Char) (ks js : List Chunk) (u b e body spaces rest : List Char) :
    Prop where
  text : s = u ++ (exportOpening b e ++ (body ++ (spaces ++ rest)))
  leads : Leads (exportOpening b e ++ (body ++ (spaces ++ rest))) 0 u ks
  statement : Scan.start.statement (exportOpening b e ++ (body ++ (spaces ++ rest))) =
    .ok (exportOpening b e ++ (body ++ spaces), rest)
  chunks : ∃ n, chunks n rest = .ok js
  apart : b ≠ []
  first : ∀ c ∈ b, isBlank c = true
  second : ∀ c ∈ e, isBlank c = true
  spaces : ∀ c ∈ spaces, isSpace c = true
  tight : dropEndWhile isSpace body = body

theorem size_exportOpening (n : Nat) (b e body : List Char) :
    n + size (exportOpening b e ++ body) - size ('{' :: body) + 1 = n + size (exportOpening b e) := by
  have brace : '{'.utf8Size = 1 := rfl
  simp only [exportOpening_eq, size_append, size_cons, size_nil, brace]
  omega

theorem exists_defaultAt {s : List Char} {ks js : List Chunk} {k : Chunk} {brace : Nat}
    (h : chunks 0 s = .ok (ks ++ k :: js))
    (hk : (Item.ofChunk k).kind = .exportDefault (some brace)) :
    ∃ u b e body spaces rest, DefaultAt s ks js u b e body spaces rest ∧
      k = ⟨size u, exportOpening b e ++ body, false⟩ ∧ brace + 1 = size (u ++ exportOpening b e) := by
  have statement : k.isComment = false := by
    rw [← Item.kind_ofChunk_beq k, hk]
    rfl
  obtain ⟨u, spaces, rest, at', hstart⟩ := exists_statementAt h statement
  have kind : Kind.ofStatement k.stop k.text = .exportDefault (some brace) := by
    simpa [Item.ofChunk, statement] using hk
  obtain ⟨b, e, body, htext, apart, first, second, hbrace⟩ := Kind.exists_exportOpening kind
  have hrun : exportOpening b e = "export".toList ++ (b ++ ("default".toList ++ e)) ++ ['{'] := by
    simp [exportOpening_eq]
  have tight : dropEndWhile isSpace body = body := by
    have idem := dropEndWhile_of_last at'.last
    rw [htext, hrun, List.append_assoc, List.singleton_append, dropEndWhile_append_cons (by decide)]
      at idem
    exact (List.cons.inj (List.append_cancel_left idem)).2
  rw [htext] at at' hstart
  obtain ⟨whole, -, -, skipped, leads, -, hs, behind⟩ := at'
  rw [List.append_assoc] at whole leads hs
  rw [List.append_assoc (exportOpening b e)] at hs
  refine ⟨u, b, e, body, spaces, rest,
    ⟨whole, leads, hs, ⟨_, behind⟩, apart, first, second, skipped, tight⟩, hstart, ?_⟩
  rw [hbrace, hstart, Chunk.stop, size_exportOpening, size_append]

/-- What a reader finds of a chunk is said by its text and whether it is a comment. -/
theorem view_ofChunk (k : Chunk) : (Item.ofChunk k).view =
    (if k.face.2 then .comment else (Kind.ofStatement 0 k.face.1).seen, k.face.1) := by
  refine Prod.ext ?_ rfl
  unfold Item.view Item.ofChunk Chunk.face
  cases k.isComment with
  | true => rfl
  | false => exact Kind.seen_ofStatement _ _ _

theorem view_of_face {is js : List Chunk} (h : is.map Chunk.face = js.map Chunk.face) :
    (is.map Item.ofChunk).map Item.view = (js.map Item.ofChunk).map Item.view := by
  have go (ks : List Chunk) : (ks.map Item.ofChunk).map Item.view = (ks.map Chunk.face).map
      fun f => (if f.2 then .comment else (Kind.ofStatement 0 f.1).seen, f.1) := by
    simp only [List.map_map, Function.comp_def, view_ofChunk]
  rw [go, go, h]

end EsModule

namespace Synthesis

/-- What a text with a default export of an object becomes when a tree joins the object. -/
def joinedText (t : Tree) (name : String) (before after : List Char) : List Char :=
  before ++ (Fragment.constant name.toList t.jsonChars ++ '\n' :: (joinedOpening name.toList ++ after))

theorem joined_eq {t : Tree} {name : String} {u b e v : List Char} {brace : Nat}
    (hb : brace + 1 = size (u ++ exportOpening b e)) :
    joined (u ++ (exportOpening b e ++ v)) (Fragment.constant name.toList t.jsonChars) name.toList
      (size u) brace = joinedText t name u v := by
  have none (s : List Char) : takeSize 0 s = [] := by
    cases s with
    | nil => rfl
    | cons c s => exact if_neg (by have := c.utf8Size_pos; omega)
  have front : takeSize (size u) (u ++ (exportOpening b e ++ v)) = u := by
    rw [takeSize_size_append, none, List.append_nil]
  have behind : textFrom (brace + 1) (u ++ (exportOpening b e ++ v)) = v := by
    rw [textFrom, hb, ← List.append_assoc, takeSize_size_append, none, List.append_nil,
      List.drop_left]
  have entry : "\nexport default \x7b ".toList ++ (name.toList ++ ([','] ++ v)) =
      '\n' :: (joinedOpening name.toList ++ v) := by
    simp [joinedOpening, exportOpening_eq]
  rw [joined, front, behind, joinedText]
  simp only [List.append_assoc, entry]

section

variable {t : Tree} {name : String} {s u b e body spaces rest : List Char} {ks js : List Chunk}

/-- The object that the tree has joined is read from its keyword to where it ended before. -/
theorem chunks_joinedOpening (hv : Identifier.isValid name = true)
    (h : DefaultAt s ks js u b e body spaces rest) (n : Nat) :
    ∃ is, is.map Chunk.face = js.map Chunk.face ∧
      chunks n (joinedOpening name.toList ++ (body ++ (spaces ++ rest))) =
        .ok (⟨n, joinedOpening name.toList ++ body, false⟩ :: is) := by
  obtain ⟨m, hrest⟩ := h.chunks
  have hs := Scan.statement_joinedOpening h.first h.second (Identifier.word_of_isValid hv).2
    h.statement
  obtain ⟨is, his, same⟩ := chunks_moved
    (n + size (joinedOpening name.toList ++ (body ++ spaces))) hrest
  have hf : is.map Chunk.face = js.map Chunk.face := by
    simpa [Function.comp_def] using congrArg (List.map Prod.fst) same
  obtain ⟨w, hw⟩ : ∃ w, joinedOpening name.toList = 'e' :: 'x' :: w := ⟨_, rfl⟩
  have first : chunks n (joinedOpening name.toList ++ (body ++ (spaces ++ rest))) =
      (chunks (n + size (joinedOpening name.toList ++ (body ++ spaces))) rest).map
        (.trimmed n (joinedOpening name.toList ++ (body ++ spaces)) false :: ·) := by
    rw [hw] at hs ⊢
    exact chunks_of_statement (by decide) (Chunk.comment?_eq_none.mpr (.inl (by decide))) hs
  have trimmed : dropEndWhile isSpace (joinedOpening name.toList ++ (body ++ spaces)) =
      joinedOpening name.toList ++ body := by
    have hc : joinedOpening name.toList ++ body =
        exportOpening [' '] [' '] ++ ' ' :: name.toList ++ ',' :: body := by simp [joinedOpening]
    rw [← List.append_assoc, dropEndWhile_append_of_all _ h.spaces, hc,
      dropEndWhile_append_cons (by decide), h.tight]
  refine ⟨is, hf, ?_⟩
  rw [first, his, Chunk.trimmed, trimmed]
  rfl

/-- A reader finds the declaration and the joined object among the other chunks. -/
theorem chunks_joinedText (hv : Identifier.isValid name = true)
    (h : DefaultAt s ks js u b e body spaces rest) :
    ∃ n is, is.map Chunk.face = js.map Chunk.face ∧
      chunks 0 (joinedText t name u (body ++ (spaces ++ rest))) = .ok (ks ++
        ⟨size u, Fragment.constant name.toList t.jsonChars, false⟩ ::
          ⟨n, joinedOpening name.toList ++ body, false⟩ :: is) := by
  let declaration := Fragment.constant name.toList t.jsonChars
  obtain ⟨w, hw⟩ : ∃ w, declaration = "export".toList ++ ' ' :: w := ⟨_, Fragment.constant_eq _ _⟩
  have line : IsLine declaration false :=
    isLine_of_closes (c := 'e') (by rw [hw]; rfl) (by decide) (by decide) (by decide)
      (Fragment.closes_constant hv (.node t))
  obtain ⟨is, hf, his⟩ := chunks_joinedOpening hv h (size u + size declaration + 1)
  refine ⟨size u + size declaration + 1, is, hf, ?_⟩
  have keyword (v : List Char) :
      afterKeyword? "export".toList (declaration ++ v) = some (' ' :: w ++ v) := by
    rw [hw, List.append_assoc]
    exact afterKeyword?_append (forall_head?_cons (by decide))
  have leads := h.leads.before_export (afterKeyword?_exportOpening h.first h.apart _)
    (keyword ('\n' :: (joinedOpening name.toList ++ (body ++ (spaces ++ rest)))))
  have read := leads.chunks_append
  rw [Nat.zero_add, chunks_line line, his] at read
  exact read

theorem view_constant (hv : Identifier.isValid name = true) (n : Nat) :
    (Item.ofChunk ⟨n, Fragment.constant name.toList t.jsonChars, false⟩).view =
      (.declaration [name], Fragment.constant name.toList t.jsonChars) := by
  rw [view_ofChunk]
  simp only [Chunk.face, Bool.false_eq_true, if_false]
  rw [show t.jsonChars = (Value.node t).literal from rfl, Fragment.ofStatement_constant 0 hv]
  rfl

theorem view_joinedOpening (n : Nat) :
    (Item.ofChunk ⟨n, joinedOpening name.toList ++ body, false⟩).view =
      (.exportDefault (some 0), joinedOpening name.toList ++ body) := by
  have blank : ∀ c ∈ [' '], isBlank c := forall_mem_of_all (by decide)
  have kind := Kind.ofStatement_exportOpening 0 blank (by simp) blank
    (' ' :: (name.toList ++ [',']) ++ body)
  rw [← List.append_assoc] at kind
  rw [view_ofChunk]
  simp only [Chunk.face, Bool.false_eq_true, if_false, joinedOpening, kind]
  rfl

theorem synthesize_eq_joined {d : String} {m : EsModule} {i : Item} {brace : Nat}
    (hd : ofText? d.toList = .ok m) (hi : m.default? = some i)
    (hk : i.kind = .exportDefault (some brace)) (hn : name ∉ m.exportedNames) :
    synthesize t d .merge false name = .ok (String.ofList (joined d.toList
      (Fragment.constant name.toList t.jsonChars) name.toList i.start brace)) := by
  have read : readModule d.toList = .ok m := by rw [readModule, hd]
  have anchor : anchor? m = some (i.start, brace) := by simp only [anchor?, hi, hk]
  have free : m.exportedNames.contains name = false := by simpa using hn
  simp only [synthesize, read, bind, Except.bind, mergeInto, free, anchor, Bool.false_eq_true,
    if_false]

end

/-- A tree is merged into a module under a valid name that the module does not export, if its default
export is an object. Of the text only the blanks between the keywords and the brace are lost, and it
is read as before but for the declaration of the tree and the first entry of the object. -/
theorem synthesize_merge {t : Tree} {d name : String} {m : EsModule} {i : Item} {brace : Nat}
    (hd : ofText? d.toList = .ok m) (hi : m.default? = some i)
    (hk : i.kind = .exportDefault (some brace)) (hv : Identifier.isValid name = true)
    (hn : name ∉ m.exportedNames) :
    ∃ code r before b e body after first last,
      synthesize t d .merge false name = .ok code ∧
      d.toList = before ++ (exportOpening b e ++ (body ++ after)) ∧
      (∀ c ∈ b ++ e, isBlank c = true) ∧
      code.toList = joinedText t name before (body ++ after) ∧
      ofText? code.toList = .ok r ∧
      m = first ++ i :: last ∧ i.start = size before ∧ i.text = exportOpening b e ++ body ∧
      r.map Item.view = first.map Item.view ++
        (.declaration [name], Fragment.constant name.toList t.jsonChars) ::
        (.exportDefault (some 0), joinedOpening name.toList ++ body) :: last.map Item.view := by
  cases hc : chunks 0 d.toList with
  | error f => simp [ofText?, hc, Except.map] at hd
  | ok cs =>
    have hm : cs.map Item.ofChunk = m := by
      rw [ofText?, hc] at hd
      exact Except.ok.inj hd
    obtain ⟨-, first, last, rfl, -⟩ := List.find?_eq_some_iff_append.mp hi
    obtain ⟨ks, ls, rfl, rfl, hl⟩ := List.map_eq_append_iff.mp hm
    obtain ⟨k, js, rfl, rfl, rfl⟩ := List.map_eq_cons_iff.mp hl
    obtain ⟨u, b, e, body, spaces, rest, found, rfl, hbrace⟩ := exists_defaultAt hc hk
    obtain ⟨n, is, hf, hr⟩ := chunks_joinedText (t := t) hv found
    have code : joined d.toList (Fragment.constant name.toList t.jsonChars) name.toList (size u)
        brace = joinedText t name u (body ++ (spaces ++ rest)) := by
      rw [found.text]
      exact joined_eq hbrace
    have outcome : synthesize t d .merge false name =
        .ok (String.ofList (joinedText t name u (body ++ (spaces ++ rest)))) :=
      (synthesize_eq_joined hd hi hk hn).trans (congrArg (fun s => Except.ok (String.ofList s)) code)
    have again : ofText? (String.ofList (joinedText t name u (body ++ (spaces ++ rest)))).toList =
        .ok ((ks ++ ⟨size u, Fragment.constant name.toList t.jsonChars, false⟩ ::
          ⟨n, joinedOpening name.toList ++ body, false⟩ :: is).map Item.ofChunk) := by
      rw [String.toList_ofList, ofText?, hr]
      rfl
    refine ⟨_, _, u, b, e, body, spaces ++ rest, _, _, outcome, found.text, fun c hc => ?_,
      String.toList_ofList, again, rfl, rfl, rfl, ?_⟩
    · exact (List.mem_append.mp hc).elim (found.first c) (found.second c)
    · rw [List.map_append, List.map_append, List.map_cons, List.map_cons, List.map_cons,
        List.map_cons, view_of_face hf, view_constant hv, view_joinedOpening]

theorem synthesize_merge_object : ∃ d code m r, ofText? d.toList = .ok m ∧
    synthesize (.leaf "b" "2" .empty) d .merge false "shared" = .ok code ∧
    ofText? code.toList = .ok r ∧ r.length = m.length + 1 := by
  let d := "const a = 1\nexport  default\n\x7b a \x7d;\nlog(a)\n"
  let code := "const a = 1\nexport const shared = \x7b\"b\":\"2\"\x7d;\n" ++
    "export default \x7b shared, a \x7d;\nlog(a)\n"
  let i : Item := ⟨"export  default\n\x7b a \x7d;".toList, 12, 34, .exportDefault (some 28)⟩
  let m : EsModule := [⟨"const a = 1".toList, 0, 11, .statement⟩, i,
    ⟨"log(a)".toList, 35, 41, .statement⟩]
  have hd : ofText? d.toList = .ok m := by decide +kernel
  have hv : Identifier.isValid "shared" = true := by decide +kernel
  have h : synthesize (.leaf "b" "2" .empty) d .merge false "shared" = .ok code := by
    decide +kernel
  obtain ⟨code', r, _, _, _, _, _, first, last, outcome, -, -, -, again, split, -, -, views⟩ :=
    synthesize_merge (t := .leaf "b" "2" .empty) (i := i) hd (by decide +kernel) rfl hv
      (by decide +kernel)
  obtain rfl : code = code' := Except.ok.inj (h.symm.trans outcome)
  refine ⟨d, code, m, r, hd, h, again, ?_⟩
  have count := congrArg List.length views
  simp only [List.length_map, List.length_append, List.length_cons] at count
  rw [split, List.length_append, List.length_cons]
  omega

end Synthesis

end StyleExports
