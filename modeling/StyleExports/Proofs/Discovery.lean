import StyleExports.Discovery
import StyleExports.Proofs.Disk.Tree

namespace StyleExports

open Text Disk

namespace Discovery

theorem isStylesheet_iff {p : Path} : isStylesheet p = true ↔
    ∃ n e, p.fileName? = some n ∧ (Path.cutExtension n).2 = some e ∧
      isStylesheetExtension e = true := by
  unfold isStylesheet Path.extension?
  cases p.fileName? with
  | none => simp
  | some n => cases h : (Path.cutExtension n).2 <;> simp [h]

/-- The components of a path say whether it is one of a stylesheet. -/
theorem isStylesheet_congr {p q : Path} (h : p.components = q.components) :
    isStylesheet p = isStylesheet q := by
  unfold isStylesheet Path.extension? Path.fileName?
  rw [h]

theorem mem_join {found more : List Path} {p : Path} (h : p ∈ join found more) :
    p ∈ found ∨ p ∈ more := by
  unfold join at h
  induction more generalizing found with
  | nil => exact .inl h
  | cons q more ih =>
    rw [List.foldl_cons] at h
    rcases ih h with h | h
    · split at h
      · exact .inl h
      · rcases List.mem_append.mp h with h | h
        · exact .inl h
        · exact .inr (List.mem_cons.mpr (.inl (List.mem_singleton.mp h)))
    · exact .inr (List.mem_cons_of_mem _ h)

theorem mem_foldl_join {lists : List (List Path)} {found : List Path} {p : Path}
    (h : p ∈ lists.foldl join found) : p ∈ found ∨ ∃ l ∈ lists, p ∈ l := by
  induction lists generalizing found with
  | nil => exact .inl h
  | cons l lists ih =>
    rcases ih h with h | ⟨m, hm, hp⟩
    · rcases mem_join h with h | h
      · exact .inl h
      · exact .inr ⟨l, List.mem_cons_self, h⟩
    · exact .inr ⟨m, List.mem_cons_of_mem _ hm, hp⟩

theorem mem_inDirectory {d : Disk} {c : Config} {p f : Path} : f ∈ inDirectory d c p ↔
    f ∈ d.walk p ∧ c.isExcluded f.chars = false ∧ isStylesheet f = true := by
  rw [inDirectory, List.mem_filter, Bool.and_eq_true, Bool.not_eq_true']

section

variable {found more : List Path} {lists : List (List Path)} {cs : List Component}

theorem mem_components_join : cs ∈ (join found more).map Path.components ↔
    cs ∈ found.map Path.components ∨ cs ∈ more.map Path.components := by
  unfold join
  induction more generalizing found with
  | nil => simp
  | cons p more ih =>
    rw [List.foldl_cons, ih, List.map_cons, List.mem_cons, ← or_assoc]
    refine or_congr_left ?_
    split
    · rename_i present
      refine ⟨.inl, fun h => h.elim id ?_⟩
      rintro rfl
      obtain ⟨q, hq, same⟩ := List.any_eq_true.mp present
      exact List.mem_map.mpr ⟨q, hq, beq_iff_eq.mp same⟩
    · rw [List.map_append, List.mem_append, List.map_singleton, List.mem_singleton]

theorem nodup_components_join (h : (found.map Path.components).Nodup) :
    ((join found more).map Path.components).Nodup := by
  unfold join
  induction more generalizing found with
  | nil => exact h
  | cons p more ih =>
    rw [List.foldl_cons]
    apply ih
    split
    · exact h
    · rename_i absent
      rw [List.map_append, List.map_singleton, List.nodup_append]
      refine ⟨h, List.nodup_cons.mpr ⟨List.not_mem_nil, List.nodup_nil⟩, ?_⟩
      rintro c hc e he rfl
      obtain ⟨q, hq, same⟩ := List.mem_map.mp hc
      rw [List.mem_singleton.mp he] at same
      exact absent (List.any_eq_true.mpr ⟨q, hq, beq_iff_eq.mpr same⟩)

theorem mem_components_foldl_join : cs ∈ (lists.foldl join found).map Path.components ↔
    cs ∈ found.map Path.components ∨ ∃ l ∈ lists, cs ∈ l.map Path.components := by
  induction lists generalizing found with
  | nil => simp
  | cons l lists ih =>
    rw [List.foldl_cons, ih, mem_components_join, or_assoc]
    simp

theorem nodup_components_foldl_join (h : (found.map Path.components).Nodup) :
    ((lists.foldl join found).map Path.components).Nodup := by
  induction lists generalizing found with
  | nil => exact h
  | cons l lists ih => exact ih (nodup_components_join h)

end

theorem nodup_components_inSources (d : Disk) (c : Config) (root : Path) :
    ((inSources d c root).map Path.components).Nodup := nodup_components_foldl_join List.nodup_nil

/-- In a tree, a directory gives the names of the files below it behind what leads to it. -/
theorem mem_components_inDirectory {d : Disk} (tree : d.IsTree) {c : Config} {p : Path} {a : Place}
    (place : d.place? p = .ok a) (directory : d.isDirectoryAt a = true) {cs : List Component} :
    cs ∈ (inDirectory d c p).map Path.components ↔ ∃ names, names ≠ [] ∧
      (∃ e, (a ++ names, e) ∈ d.entries ∧ e ≠ .directory) ∧
      cs = p.components ++ names.map .name ∧ c.isExcluded (p.joinAll names).chars = false ∧
      isStylesheet (p.joinAll names) = true := by
  have components {names : List (List Char)} {e : Entry} (h : (a ++ names, e) ∈ d.entries) :
      (p.joinAll names).components = p.components ++ names.map .name :=
    Path.components_joinAll (fun n hn => (tree.names _ h n (List.mem_append_right _ hn)).1) p
  rw [List.mem_map]
  constructor
  · rintro ⟨f, mem, rfl⟩
    obtain ⟨walk, included, stylesheet⟩ := mem_inDirectory.mp mem
    obtain ⟨b, place', found⟩ := mem_walk.mp walk
    obtain rfl := Except.ok.inj (place.symm.trans place')
    rw [if_pos directory] at found
    obtain ⟨names, rfl, proper, e, there, file⟩ := found
    exact ⟨names, proper, ⟨e, there, file⟩, components there, included, stylesheet⟩
  · rintro ⟨names, proper, ⟨e, there, file⟩, rfl, included, stylesheet⟩
    refine ⟨p.joinAll names, mem_inDirectory.mpr ⟨mem_walk.mpr ⟨a, place, ?_⟩, included, stylesheet⟩,
      components there⟩
    rw [if_pos directory]
    exact ⟨names, rfl, proper, e, there, file⟩

end Discovery

end StyleExports
