import StyleExports.Proofs.Extraction.Collision
import StyleExports.Proofs.Stylesheet.Cutting
import StyleExports.Proofs.Stylesheet.Tiling

namespace StyleExports

open Text Stylesheet

namespace Export

/-- What is found about a character of a path. A discouraged one is no matter where names are renamed. -/
def Offends (f : Option (String → String)) (c : Char) (x : Finding) : Prop :=
  (c ∈ forbidden ∧ x = .forbidden c) ∨ (c ∈ discouraged ∧ f = none ∧ x = .discouraged c)

def offenceCodes : List String :=
  ["css_export::selector::forbidden", "css_export::selector::discouraged"]

theorem Finding.code_mem_offenceCodes {x : Finding} {p : Span} :
    (x.diagnostic p).code ∈ offenceCodes ↔ ∃ c, x = .forbidden c ∨ x = .discouraged c := by
  have own : (x.diagnostic p).code = x.code := rfl
  rw [own]
  cases x <;> simp [code, offenceCodes]

theorem Selector.toText_of_matchMarker? {m : Marker} {s : List Char} {e : Selector}
    (h : matchMarker? m s = some e) : e.toText = s := by
  unfold matchMarker? at h
  split at h
  · rename_i path hp
    split at h
    · obtain rfl := Option.some.inj h
      exact List.isPrefixOf?_eq_some_iff_append_eq.mp hp
    · cases h
  · cases h

/-- An export selector is the text that it was read from. -/
theorem Selector.toText_of_ofText? {s : List Char} {e : Selector} (h : ofText? s = some e) :
    e.toText = s := by
  rcases Option.or_eq_some_iff.mp h with h | ⟨-, h⟩
  · exact toText_of_matchMarker? h
  · exact toText_of_matchMarker? h

namespace PathIssue

/-- The issues of a path are its characters that are a matter, each at its offset. -/
theorem mem_inPathFrom {i : PathIssue} {n : Nat} {s : List Char} : i ∈ inPathFrom n s ↔
    kind? i.character = some i.kind ∧
      ∃ u v, s = u ++ i.character :: v ∧ i.offset = n + size u := by
  constructor
  · intro h
    induction s generalizing n with
    | nil => simp [inPathFrom] at h
    | cons c s ih =>
      have later (h : i ∈ inPathFrom (n + c.utf8Size) s) : kind? i.character = some i.kind ∧
          ∃ u v, c :: s = u ++ i.character :: v ∧ i.offset = n + size u := by
        obtain ⟨hk, u, v, rfl, hi⟩ := ih h
        exact ⟨hk, c :: u, v, rfl, by rw [hi, size_cons, Nat.add_assoc]⟩
      rw [inPathFrom] at h
      split at h
      · rename_i k hk
        rcases List.mem_cons.mp h with rfl | h
        · exact ⟨hk, [], s, rfl, rfl⟩
        · exact later h
      · exact later h
  · obtain ⟨k, m, c⟩ := i
    rintro ⟨hk, u, v, rfl, rfl⟩
    dsimp only at hk
    rw [inPathFrom_append, inPathFrom, hk]
    exact List.mem_append_right _ List.mem_cons_self

theorem pairwise_inPathFrom (n : Nat) (s : List Char) :
    (inPathFrom n s).Pairwise fun i j => i.offset < j.offset := by
  induction s generalizing n with
  | nil => exact .nil
  | cons c s ih =>
    rw [inPathFrom]
    split
    · refine List.pairwise_cons.mpr ⟨fun i hi => ?_, ih _⟩
      obtain ⟨-, u, v, -, ho⟩ := mem_inPathFrom.mp hi
      have := c.utf8Size_pos
      dsimp only
      omega
    · exact ih _

end PathIssue

end Export

/-- The selectors of the export rules with the offsets at which they start. The rules stand side by side or
in the blocks of at-rules only. -/
def Stylesheet.Outline.exportSelectors : Outline → List (Nat × Export.Selector)
  | .empty => []
  | .rule selector _ _ range rest =>
    match Export.Selector.ofText? selector.toList with
    | some e => (range.start, e) :: rest.exportSelectors
    | none => rest.exportSelectors
  | .atBlock _ _ inner _ rest => inner.exportSelectors ++ rest.exportSelectors
  | .atStatement _ _ rest => rest.exportSelectors
  | .comment _ rest => rest.exportSelectors
  | .other _ rest => rest.exportSelectors

theorem Stylesheet.Outline.exportSelectors_eq (o : Outline) :
    o.exportSelectors = o.exportRules.map fun r => (r.offset, r.selector) := by
  induction o with
  | empty => rfl
  | rule selector ds inner range rest _ ih =>
    rw [exportSelectors, exportRules, ih]
    cases Export.Selector.ofText? selector.toList <;> rfl
  | atBlock _ _ _ _ _ ihi ihr => rw [exportSelectors, exportRules, ihi, ihr, List.map_append]
  | atStatement _ _ _ ih => exact ih
  | comment _ _ ih => exact ih
  | other _ _ ih => exact ih

def ExportRule.selectorEnd (r : ExportRule) : Nat := r.offset + size r.selector.toText

/-- The text in front of the block of an export rule begins with the selector. -/
theorem exists_prelude {prelude : List Char} {e : Export.Selector}
    (h : exportSelector? prelude = some e) : ∃ w, prelude = e.toText ++ w := by
  unfold exportSelector? Prelude.ofText at h
  cases ha : AtRule.ofText? prelude with
  | some r => simp [ha] at h
  | none =>
    simp only [ha] at h
    obtain ⟨w, -, hw⟩ := exists_dropEndWhile isBlank prelude
    exact ⟨w, by rw [Export.Selector.toText_of_ofText? h]; exact hw⟩

namespace Stylesheet.Sheet

theorem inOrder_exportRules (sheet : Sheet) (n : Nat) :
    InOrder ExportRule.offset ExportRule.selectorEnd (sheet.exportRules n) n (n + size sheet.toText) := by
  induction sheet generalizing n with
  | empty => exact .nil
  | piece p rest ih =>
    rw [toText, size_append, ← Nat.add_assoc]
    exact (ih _).mono (by omega) (by omega)
  | block prelude inner closed rest ihi ihr =>
    have stop := size_ofBlock n prelude inner closed
    have after := ihr (n + size prelude + 1 + size inner.toText + size (closingText closed))
    rw [exportRules, toText_block, size_append, ← Nat.add_assoc, stop]
    cases he : exportSelector? prelude with
    | some e =>
      obtain ⟨w, rfl⟩ := exists_prelude he
      have marker : 0 < size e.marker.text := by cases e.marker <;> decide
      have selector : 0 < size e.toText := by
        rw [Export.Selector.toText, size_append]
        omega
      have here (ds : List Declaration) (nested : Bool) :
          InOrder ExportRule.offset ExportRule.selectorEnd [⟨e, n, ds, nested⟩] n (n + size e.toText) :=
        .singleton (Nat.le_refl n) (Nat.lt_add_of_pos_right selector) (Nat.le_refl _)
      rw [size_append] at *
      exact ((here _ _).mono (Nat.le_refl n) (by omega)).append after (by omega) (by omega)
    | none =>
      cases isAtRule prelude with
      | true => exact (((ihi _).mono (by omega) (by omega)).append after (by omega) (by omega))
      | false => exact after.mono (by omega) (by omega)

/-- The selectors of export rules stand in the text. -/
theorem standsAt_exportRules {s : List Char} {a b : Nat} {sheet : Sheet}
    (h : StandsAt s sheet.toText a b) :
    ∀ r ∈ sheet.exportRules a, StandsAt s r.selector.toText r.offset r.selectorEnd := by
  induction sheet generalizing a b with
  | empty => exact fun r hr => absurd hr List.not_mem_nil
  | piece p rest ih => exact ih h.right
  | block prelude inner closed rest ihi ihr =>
    obtain ⟨ho, hi, -, hr⟩ := standsAt_block h
    intro r hm
    rw [exportRules] at hm
    cases he : exportSelector? prelude with
    | some e =>
      obtain ⟨w, rfl⟩ := exists_prelude he
      simp only [he, List.mem_cons] at hm
      rcases hm with rfl | hm
      · exact ho.left.left
      · exact ihr hr r hm
    | none =>
      simp only [he] at hm
      split at hm
      · exact (List.mem_append.mp hm).elim (ihi hi r) (ihr hr r)
      · exact ihr hr r hm

end Stylesheet.Sheet

def Diagnostic.IsBefore (d e : Diagnostic) : Prop :=
  ∃ p q, d.span = some p ∧ e.span = some q ∧ p.start.offset < q.start.offset

namespace ExportRule

variable {f : Option (String → String)} {r : ExportRule}

theorem offends_iff {c : Char} {x : Export.Finding} (n : Nat) : Export.Offends f c x ↔
    ∃ k, Export.PathIssue.kind? c = some k ∧ finding? f ⟨k, n, c⟩ = some x := by
  have apart : ∀ c ∈ Export.discouraged, c ∉ Export.forbidden :=
    Text.forall_mem_of_all (by decide)
  unfold Export.Offends Export.PathIssue.kind?
  by_cases hf : c ∈ Export.forbidden
  · have hd : c ∉ Export.discouraged := fun hd => apart c hd hf
    simpa [hf, hd, finding?] using eq_comm
  · by_cases hd : c ∈ Export.discouraged
    · cases f
      · simpa [hf, hd, finding?] using eq_comm
      · simp [hf, hd, finding?]
    · simp [hf, hd]

section

variable {b a : List Char}

/-- The span of a character behind the marker of a rule that stands between two texts. -/
theorem charAt_path {u v : List Char} {c : Char} (hb : size b = r.offset)
    (hp : r.selector.path = u ++ c :: v) :
    Span.charAt (b ++ (r.selector.toText ++ a)) (r.pathOffset + size u) =
      ⟨.after (b ++ r.selector.marker.text ++ u), .after (b ++ r.selector.marker.text ++ u ++ [c])⟩ := by
  have text : b ++ (r.selector.toText ++ a) =
      (b ++ r.selector.marker.text ++ u) ++ c :: (v ++ a) := by
    simp [Export.Selector.toText, hp]
  have offset : r.pathOffset + size u = size (b ++ r.selector.marker.text ++ u) := by
    rw [pathOffset, ← hb, size_append, size_append]
  rw [text, offset, charAt_boundary]

theorem mem_pathDiagnostics (hb : size b = r.offset) {d : Diagnostic} :
    d ∈ r.pathDiagnostics (b ++ (r.selector.toText ++ a)) f ↔
      ∃ u c v x, r.selector.path = u ++ c :: v ∧ Export.Offends f c x ∧
        d = x.diagnostic ⟨.after (b ++ r.selector.marker.text ++ u),
          .after (b ++ r.selector.marker.text ++ u ++ [c])⟩ := by
  simp only [pathDiagnostics, issues, Export.PathIssue.inPath, List.mem_filterMap,
    Option.map_eq_some_iff]
  constructor
  · rintro ⟨i, hi, x, hx, rfl⟩
    obtain ⟨hk, u, v, hp, ho⟩ := Export.PathIssue.mem_inPathFrom.mp hi
    rw [Nat.zero_add] at ho
    exact ⟨u, i.character, v, x, hp, (offends_iff i.offset).mpr ⟨i.kind, hk, hx⟩,
      by rw [ho, charAt_path hb hp]⟩
  · rintro ⟨u, c, v, x, hp, hc, rfl⟩
    obtain ⟨k, hk, hx⟩ := (offends_iff (size u)).mp hc
    let i : Export.PathIssue := ⟨k, size u, c⟩
    have hi : i ∈ Export.PathIssue.inPathFrom 0 r.selector.path :=
      Export.PathIssue.mem_inPathFrom.mpr ⟨hk, u, v, hp, (Nat.zero_add _).symm⟩
    exact ⟨i, hi, x, hx, by rw [charAt_path hb hp]⟩

/-- The diagnostics on the characters of a rule are in the order of these. -/
theorem pairwise_pathDiagnostics (hb : size b = r.offset) :
    (r.pathDiagnostics (b ++ (r.selector.toText ++ a)) f).Pairwise Diagnostic.IsBefore := by
  have start {i : Export.PathIssue} (hi : i ∈ r.issues) :
      (Span.charAt (b ++ (r.selector.toText ++ a)) (r.pathOffset + i.offset)).start.offset =
        r.pathOffset + i.offset := by
    obtain ⟨-, u, v, hp, ho⟩ := Export.PathIssue.mem_inPathFrom.mp hi
    rw [Nat.zero_add] at ho
    rw [ho, charAt_path hb hp]
    simp [pathOffset, ← hb, Position.after, Nat.add_assoc]
  refine List.pairwise_filterMap.mpr
    ((Export.PathIssue.pairwise_inPathFrom 0 r.selector.path).imp_of_mem ?_)
  intro i j hi hj hlt d hd e he
  obtain ⟨x, -, rfl⟩ := Option.map_eq_some_iff.mp hd
  obtain ⟨y, -, rfl⟩ := Option.map_eq_some_iff.mp he
  refine ⟨_, _, rfl, rfl, ?_⟩
  rw [start hi, start hj]
  omega

theorem inside_pathDiagnostics (hb : size b = r.offset) {d : Diagnostic}
    (h : d ∈ r.pathDiagnostics (b ++ (r.selector.toText ++ a)) f) :
    ∃ p, d.span = some p ∧ r.offset ≤ p.start.offset ∧ p.start.offset < r.selectorEnd := by
  obtain ⟨u, c, v, x, hp, -, rfl⟩ := (mem_pathDiagnostics hb).mp h
  have := c.utf8Size_pos
  refine ⟨_, rfl, ?_, ?_⟩
  · simp only [Position.after, size_append, ← hb]
    omega
  · simp only [Position.after, selectorEnd, Export.Selector.toText, hp, size_append, size_cons, ← hb]
    omega

end

theorem finding?_offence {i : Export.PathIssue} {x : Export.Finding} (h : finding? f i = some x) :
    ∃ c, x = .forbidden c ∨ x = .discouraged c := by
  unfold finding? at h
  split at h
  · exact ⟨_, .inl (Option.some.inj h).symm⟩
  · split at h
    · exact ⟨_, .inr (Option.some.inj h).symm⟩
    · cases h

theorem filter_offences (s : List Char) (f : Option (String → String)) (r : ExportRule) (t : Tree) :
    (r.diagnostics s f t).filter (·.code ∈ Export.offenceCodes) = r.pathDiagnostics s f := by
  have path : ∀ d ∈ r.pathDiagnostics s f, d.code ∈ Export.offenceCodes := by
    intro d hd
    obtain ⟨i, -, hi⟩ := List.mem_filterMap.mp hd
    obtain ⟨x, hx, rfl⟩ := Option.map_eq_some_iff.mp hi
    exact Export.Finding.code_mem_offenceCodes.mpr (finding?_offence hx)
  have write : ∀ d ∈ r.writeDiagnostics s f t, d.code ∉ Export.offenceCodes := by
    intro d hd hc
    obtain ⟨x, hx, rfl⟩ := List.mem_map.mp hd
    obtain ⟨c, rfl | rfl⟩ := Export.Finding.code_mem_offenceCodes.mp hc <;>
      revert hx <;> cases t.collision? (r.path f) <;> cases r.nested <;> simp
  rw [diagnostics, List.filter_append, List.filter_eq_self.mpr (by simpa using path)]
  split
  · rw [List.filter_eq_nil_iff.mpr (by simpa using write), List.append_nil]
  · exact List.append_nil _

end ExportRule

theorem standsAt_of_mem_exportRules {s : List Char} :
    ∀ r ∈ (Sheet.ofText s).exportRules 0, StandsAt s r.selector.toText r.offset r.selectorEnd := by
  refine Sheet.standsAt_exportRules ?_ (b := size s)
  rw [Sheet.toText_ofText]
  exact standsAt_self s

namespace Extraction

def offences (f : Option (String → String)) (s : List Char) : Diagnostics :=
  (ofTextWith f s).diagnostics.filter (·.code ∈ Export.offenceCodes)

variable (f : Option (String → String)) (s : List Char)

theorem offences_eq : offences f s =
    ((Sheet.ofText s).exportRules 0).flatMap fun r => r.pathDiagnostics s f := by
  rw [offences, filter_diagnostics fun _ => decide_eq_false fun h => by
    simpa using Export.Finding.code_mem_offenceCodes.mp h]
  simp only [ExportRule.filter_offences]
  conv_rhs => rw [← map_stages f ((Sheet.ofText s).exportRules 0) .empty, List.flatMap_map]

/-- Selectors stand one behind the other, so what is said about one comes before what is said about the
next. -/
theorem pairwise_offences : (offences f s).Pairwise Diagnostic.IsBefore := by
  have order := Sheet.inOrder_exportRules (Sheet.ofText s) 0
  rw [offences_eq]
  refine List.pairwise_flatMap.mpr ⟨fun r hr => ?_, order.apart.imp_of_mem ?_⟩
  · obtain ⟨b, a, hs, hb, -⟩ := standsAt_of_mem_exportRules r hr
    rw [hs]
    exact ExportRule.pairwise_pathDiagnostics hb
  · intro r q hr hq hrq d hd e he
    obtain ⟨b, a, hs, hb, -⟩ := standsAt_of_mem_exportRules r hr
    obtain ⟨b', a', hs', hb', -⟩ := standsAt_of_mem_exportRules q hq
    rw [hs] at hd
    rw [hs'] at he
    obtain ⟨p, hp, -, hlt⟩ := ExportRule.inside_pathDiagnostics hb hd
    obtain ⟨p', hp', hle, -⟩ := ExportRule.inside_pathDiagnostics hb' he
    exact ⟨p, p', hp, hp', by omega⟩

theorem mem_offences {d : Diagnostic} : d ∈ offences f s ↔
    ∃ r ∈ (Sheet.ofText s).exportRules 0, ∃ b a u c v x, size b = r.offset ∧
      s = b ++ (r.selector.toText ++ a) ∧ r.selector.path = u ++ c :: v ∧ Export.Offends f c x ∧
      d = x.diagnostic ⟨.after (b ++ r.selector.marker.text ++ u),
        .after (b ++ r.selector.marker.text ++ u ++ [c])⟩ := by
  rw [offences_eq, List.mem_flatMap]
  constructor
  · rintro ⟨r, hr, hd⟩
    obtain ⟨b, a, hs, hb, -⟩ := standsAt_of_mem_exportRules r hr
    rw [hs] at hd
    obtain ⟨u, c, v, x, found⟩ := (ExportRule.mem_pathDiagnostics hb).mp hd
    exact ⟨r, hr, b, a, u, c, v, x, hb, hs, found⟩
  · rintro ⟨r, hr, b, a, u, c, v, x, hb, hs, found⟩
    refine ⟨r, hr, ?_⟩
    rw [hs]
    exact (ExportRule.mem_pathDiagnostics hb).mpr ⟨u, c, v, x, found⟩

end Extraction

/-- The selectors of the export rules of a text stand in it where its outline says. Each character behind
the marker of such a selector that offends has one diagnostic, at this character, with the line and the
column that it has in the text. There are no others, and they come in the order of the text. -/
theorem offences_ofTextWith (f : Option (String → String)) (s : List Char) :
    (∀ n e, (n, e) ∈ (outline s).exportSelectors → StandsAt s e.toText n (n + size e.toText)) ∧
      (Extraction.offences f s).Pairwise Diagnostic.IsBefore ∧
      ∀ d, d ∈ Extraction.offences f s ↔ ∃ b e a u c v x,
        (size b, e) ∈ (outline s).exportSelectors ∧ s = b ++ (e.toText ++ a) ∧ e.path = u ++ c :: v ∧
        Export.Offends f c x ∧ d = x.diagnostic
          ⟨.after (b ++ e.marker.text ++ u), .after (b ++ e.marker.text ++ u ++ [c])⟩ := by
  have selectors : (outline s).exportSelectors =
      ((Sheet.ofText s).exportRules 0).map fun r => (r.offset, r.selector) := by
    rw [Outline.exportSelectors_eq, exportRules_outline]
  refine ⟨fun n e h => ?_, Extraction.pairwise_offences f s, fun d => ?_⟩
  · rw [selectors] at h
    obtain ⟨r, hr, he⟩ := List.mem_map.mp h
    cases he
    exact standsAt_of_mem_exportRules r hr
  · rw [selectors, Extraction.mem_offences]
    simp only [List.mem_map, Prod.mk.injEq]
    constructor
    · rintro ⟨r, hr, b, a, u, c, v, x, hb, found⟩
      exact ⟨b, r.selector, a, u, c, v, x, ⟨r, hr, hb.symm, rfl⟩, found⟩
    · rintro ⟨b, e, a, u, c, v, x, ⟨r, hr, hb, rfl⟩, found⟩
      exact ⟨r, hr, b, a, u, c, v, x, hb.symm, found⟩

example : (Extraction.offences none "é \x7b\x7d\n@media x \x7b :share é b-c.d \x7b\x7d \x7d".toList).map
    (fun d => (d.severity, d.span.map fun p => (p.start.offset, p.start.line, p.start.column))) =
    [(.warning, some (28, 2, 22)), (.error, some (30, 2, 24))] := by
  decide +kernel

end StyleExports
