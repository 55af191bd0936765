import StyleExports.Config.Basic
import StyleExports.Proofs.Config.PathPattern

namespace StyleExports

open Text

namespace PathPattern

/-- The patterns that name a directory. One of two stars would be no directory but the stars in front of
another pattern. -/
def NamesDirectory (pattern directory : List Char) : Prop :=
  '/' ∉ directory ∧ directory ≠ ['*', '*'] ∧
    (pattern = ['*', '*', '/'] ++ directory ++ ['/', '*'] ∨ pattern = directory ++ ['/', '*'])

instance (pattern directory : List Char) : Decidable (NamesDirectory pattern directory) :=
  inferInstanceAs (Decidable (_ ∧ _ ∧ _))

variable {pattern directory path : List Char}

theorem directory?_append (directory : List Char) :
    directory? (directory ++ ['/', '*']) = some directory := by
  simp [directory?, List.isSuffixOf?]

theorem ofText_anywhere (directory : List Char) :
    ofText (['*', '*', '/'] ++ directory ++ ['/', '*']) = .inside directory := by
  rw [List.append_assoc]
  simp [ofText, directory?_append]

theorem ofText_directory (slash : '/' ∉ directory) (stars : directory ≠ ['*', '*']) :
    ofText (directory ++ ['/', '*']) = .inside directory := by
  have whole := directory?_append directory
  have slashed : (directory ++ ['/', '*']).contains '/' = true := by simp
  have unstarred (rest : List Char) : directory ++ ['/', '*'] ≠ '*' :: '*' :: '/' :: rest := by
    intro he
    match directory, slash, stars with
    | [], _, _ => simp at he
    | [c], _, _ => simp at he
    | [c, d], _, stars =>
      obtain ⟨hc, he⟩ := List.cons.inj he
      exact stars (by rw [hc, (List.cons.inj he).1])
    | c :: d :: e :: u, slash, _ =>
      obtain rfl : e = '/' := (List.cons.inj (List.cons.inj (List.cons.inj he).2).2).1
      simp at slash
  unfold ofText
  split
  · rename_i rest he
    exact absurd he (unstarred rest)
  · split
    · rw [if_pos slashed, whole]
    · rw [whole]

theorem NamesDirectory.ofText_eq (h : NamesDirectory pattern directory) :
    ofText pattern = .inside directory := by
  obtain ⟨slash, stars, rfl | rfl⟩ := h
  · exact ofText_anywhere directory
  · exact ofText_directory slash stars

theorem NamesDirectory.isMatch_iff (h : NamesDirectory pattern directory) (path : List Char) :
    (ofText pattern).isMatch path = true ↔ directory ∈ (split (· == '/') path).dropLast := by
  rw [h.ofText_eq]
  exact passes_iff h.1

end PathPattern

open PathPattern

/-- A pattern that names a directory, in either way, matches exactly the paths on which a part in front of
the last is that directory; and so a project whose patterns name directories leaves out exactly the paths
with one of them, and none for a part that only holds the name. -/
theorem isExcluded_iff_directory (path : List Char) :
    (∀ directory : List Char, '/' ∉ directory → directory ≠ ['*', '*'] →
      ((ofText (['*', '*', '/'] ++ directory ++ ['/', '*'])).isMatch path = true ↔
        directory ∈ (split (· == '/') path).dropLast) ∧
      ((ofText (directory ++ ['/', '*'])).isMatch path = true ↔
        directory ∈ (split (· == '/') path).dropLast)) ∧
    ∀ c : Config, (∀ e ∈ c.excludes, ∃ directory, NamesDirectory e.toList directory) →
      (c.isExcluded path = true ↔ ∃ directory ∈ (split (· == '/') path).dropLast,
        ∃ e ∈ c.excludes, NamesDirectory e.toList directory) := by
  refine ⟨fun directory slash stars => ?_, fun c named => ?_⟩
  · have anywhere : NamesDirectory _ directory := ⟨slash, stars, .inl rfl⟩
    have plain : NamesDirectory _ directory := ⟨slash, stars, .inr rfl⟩
    exact ⟨anywhere.isMatch_iff path, plain.isMatch_iff path⟩
  · rw [Config.isExcluded, List.any_eq_true]
    constructor
    · rintro ⟨e, he, hm⟩
      obtain ⟨directory, h⟩ := named e he
      exact ⟨directory, (h.isMatch_iff path).mp hm, e, he, h⟩
    · rintro ⟨directory, hd, e, he, h⟩
      exact ⟨e, he, (h.isMatch_iff path).mpr hd⟩

/-- A path with the name in three of its parts, of which only one is the directory. -/
theorem isExcluded_iff_directory_vendor :
    let c : Config := { Config.default with excludes := ["**/vendor/*", "*/*"] }
    (∀ e ∈ c.excludes, ∃ directory, NamesDirectory e.toList directory) ∧
    c.isExcluded "/my-vendor/vendor.d//vendor".toList = false ∧
    c.isExcluded "/my-vendor/vendor//a.css".toList = true := by
  intro c
  have named : ∀ e ∈ c.excludes, ∃ directory, NamesDirectory e.toList directory := by
    refine List.forall_mem_cons.mpr ⟨⟨"vendor".toList, by decide, by decide, .inl rfl⟩,
      List.forall_mem_singleton.mpr ⟨"*".toList, by decide, by decide, .inr rfl⟩⟩
  refine ⟨named, ?_, ?_⟩
  · rw [← Bool.not_eq_true, (isExcluded_iff_directory _).2 c named]
    decide +kernel
  · rw [(isExcluded_iff_directory _).2 c named]
    exact ⟨"vendor".toList, by decide +kernel, "**/vendor/*", List.mem_cons_self, by decide, by decide,
      .inl rfl⟩

end StyleExports
