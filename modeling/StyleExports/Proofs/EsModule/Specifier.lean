import StyleExports.EsModule.Basic
import StyleExports.Proofs.EsModule.Reads
import StyleExports.Proofs.Text.Separator

namespace StyleExports.EsModule

open Text

def isNameChar (c : Char) : Bool := Scan.isIdle c && !isBlank c && c != ','

theorem isNameChar_iff {c : Char} :
    isNameChar c = true ↔ Scan.isIdle c = true ∧ isBlank c = false ∧ c ≠ ',' := by
  simp [isNameChar, and_assoc]

/-- Words without marks. -/
def isPlainName (s : List Char) : Bool := !s.isEmpty && s.all isNameChar

theorem isPlainName_iff {s : List Char} :
    isPlainName s = true ↔ s ≠ [] ∧ ∀ c ∈ s, isNameChar c = true := by
  simp [isPlainName]

theorem not_mem_of_isPlainName {s : List Char} (h : isPlainName s = true) : ' ' ∉ s ∧ ',' ∉ s := by
  have hs := (isPlainName_iff.mp h).2
  exact ⟨fun hm => absurd (hs _ hm) (by decide), fun hm => absurd (hs _ hm) (by decide)⟩

theorem isTight_of_isPlainName {s : List Char} (h : isPlainName s = true) : IsTight s :=
  isTight_of_none fun c hc => (isNameChar_iff.mp ((isPlainName_iff.mp h).2 c hc)).2.1

namespace Specifier

def isPlain (e : Specifier) : Bool := isPlainName e.name.toList && isPlainName e.exported.toList

def chars (e : Specifier) : List Char := e.render.toList

section

variable {e : Specifier}

theorem chars_eq (e : Specifier) : e.chars =
    if e.name = e.exported then e.name.toList
    else e.name.toList ++ (" as ".toList ++ e.exported.toList) := by
  unfold chars render
  split
  · rfl
  · rw [String.toList_append, String.toList_append, List.append_assoc]

theorem ofText_chars (h : e.isPlain = true) : ofText e.chars = e := by
  obtain ⟨hn, he⟩ := Bool.and_eq_true_iff.mp h
  rw [chars_eq]
  unfold ofText
  by_cases hs : e.name = e.exported
  · have hc : cutText? " as ".toList e.name.toList = none :=
      cutText?_of_not_mem (not_mem_of_isPlainName hn).1
    rw [if_pos hs, hc, String.ofList_toList]
    ext1
    · rfl
    · exact hs
  · have hc : cutText? " as ".toList (e.name.toList ++ (" as ".toList ++ e.exported.toList)) =
        some (e.name.toList, e.exported.toList) :=
      cutText?_append (not_mem_of_isPlainName hn).1
    rw [if_neg hs, hc]
    simp only [trim_of_tight (isTight_of_isPlainName hn), trim_of_tight (isTight_of_isPlainName he),
      String.ofList_toList]

theorem mem_chars (h : e.isPlain = true) {c : Char} (hc : c ∈ e.chars) :
    isNameChar c = true ∨ c = ' ' := by
  obtain ⟨hn, he⟩ := Bool.and_eq_true_iff.mp h
  have names := (isPlainName_iff.mp hn).2
  rw [chars_eq] at hc
  split at hc
  · exact .inl (names c hc)
  · simp only [List.mem_append] at hc
    rcases hc with hc | hc | hc
    · exact .inl (names c hc)
    · have word : ∀ c ∈ " as ".toList, isNameChar c = true ∨ c = ' ' :=
        forall_mem_of_all (by decide)
      exact word c hc
    · exact .inl ((isPlainName_iff.mp he).2 c hc)

theorem chars_ne_nil (h : e.isPlain = true) : e.chars ≠ [] := by
  have hn := (isPlainName_iff.mp (Bool.and_eq_true_iff.mp h).1).1
  rw [chars_eq]
  split
  · exact hn
  · exact List.append_ne_nil_of_left_ne_nil hn _

theorem isTight_chars (h : e.isPlain = true) : IsTight e.chars := by
  obtain ⟨hn, he⟩ := Bool.and_eq_true_iff.mp h
  rw [chars_eq]
  split
  · exact isTight_of_isPlainName hn
  · constructor
    · intro c hc
      rw [List.head?_append_of_ne_nil _ (isPlainName_iff.mp hn).1] at hc
      exact (isTight_of_isPlainName hn).1 c hc
    · intro c hc
      rw [List.getLast?_append_of_ne_nil _ (by simp),
        List.getLast?_append_of_ne_nil _ (isPlainName_iff.mp he).1] at hc
      exact (isTight_of_isPlainName he).2 c hc

/-- Plain specifiers are read back from the list that they are written in. -/
theorem listOfText_join {specifiers : List Specifier} (hn : specifiers ≠ [])
    (h : ∀ e ∈ specifiers, e.isPlain = true) :
    listOfText (' ' :: (join [',', ' '] (specifiers.map chars) ++ [' '])) = specifiers := by
  have parts : ∀ w ∈ specifiers.map chars, ',' ∉ w ∧ IsTight w := by
    intro w hw
    obtain ⟨e, he, rfl⟩ := List.mem_map.mp hw
    refine ⟨fun hm => ?_, isTight_chars (h e he)⟩
    have hc := mem_chars (h e he) hm
    simp [isNameChar] at hc
  have full : (specifiers.map chars).filter (· ≠ []) = specifiers.map chars := by
    apply List.filter_eq_self.mpr
    intro w hw
    obtain ⟨e, he, rfl⟩ := List.mem_map.mp hw
    simpa using chars_ne_nil (h e he)
  have read : (specifiers.map chars).map ofText = specifiers := by
    rw [List.map_map]
    exact (List.map_congr_left fun e he => ofText_chars (h e he)).trans (List.map_id _)
  rw [listOfText, map_trim_split_join (by simpa using hn) parts, full, read]

/-- A text that is read as a plain specifier holds nothing but names and blanks. -/
theorem mem_of_isPlain_ofText {s : List Char} (h : (ofText s).isPlain = true) {c : Char}
    (hc : c ∈ s) : isNameChar c = true ∨ isBlank c = true := by
  have trimmed {w : List Char} (hw : isPlainName (trim w) = true) (hc : c ∈ w) :
      isNameChar c = true ∨ isBlank c = true := by
    obtain ⟨b, e, hb, he, hs⟩ := exists_trim w
    rw [hs, List.mem_append, List.mem_append] at hc
    rcases hc with (hc | hc) | hc
    · exact .inr (hb c hc)
    · exact .inl ((isPlainName_iff.mp hw).2 c hc)
    · exact .inr (he c hc)
  unfold ofText at h
  split at h
  · rename_i a b hab
    simp only [isPlain, String.toList_ofList, Bool.and_eq_true] at h
    rw [cutText?_eq_some hab, List.mem_append, List.mem_append] at hc
    rcases hc with hc | hc | hc
    · exact trimmed h.1 hc
    · have word : ∀ c ∈ " as ".toList, isNameChar c = true ∨ isBlank c = true :=
        forall_mem_of_all (by decide)
      exact word c hc
    · exact trimmed h.2 hc
  · simp only [isPlain, String.toList_ofList, Bool.and_self] at h
    exact .inl ((isPlainName_iff.mp h).2 c hc)

theorem mem_of_isPlain {s : List Char} (h : ∀ e ∈ listOfText s, e.isPlain = true) {c : Char}
    (hc : c ∈ s) : isNameChar c = true ∨ isBlank c = true ∨ c = ',' := by
  rcases mem_split_of_mem (x := ',') hc with hc | ⟨w, hw, hc⟩
  · exact .inr (.inr hc)
  obtain ⟨b, e, hb, he, hs⟩ := exists_trim w
  by_cases ht : trim w = []
  · rw [ht, List.append_nil] at hs
    rw [hs, List.mem_append] at hc
    exact .inr (.inl (hc.elim (hb c) (he c)))
  · have hm : ofText (trim w) ∈ listOfText s :=
      List.mem_map_of_mem (List.mem_filter.mpr ⟨List.mem_map_of_mem hw, by simpa using ht⟩)
    rw [hs, List.mem_append, List.mem_append] at hc
    rcases hc with (hc | hc) | hc
    · exact .inr (.inl (hb c hc))
    · exact (mem_of_isPlain_ofText (h _ hm) hc).imp_right .inl
    · exact .inr (.inl (he c hc))

end

end Specifier

end StyleExports.EsModule
