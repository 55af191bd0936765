import StyleExports.Proofs.Disk.Landing

namespace StyleExports.Disk

open Text

instance (s : List Char) : Decidable (IsName s) :=
  decidable_of_iff (Path.isTrivial s = false ∧ s ≠ ['.', '.'] ∧ '/' ∉ s)
    ⟨fun ⟨proper, ne_up, slash⟩ => ⟨proper, ne_up, slash⟩,
      fun h => ⟨h.proper, h.ne_up, h.slash⟩⟩

/-- Everything has one place, with names that paths can say, and lies in a directory. So does the
working directory. -/
structure IsTree (d : Disk) : Prop where
  here : d.isDirectoryAt d.here = true
  distinct : (d.entries.map Prod.fst).Nodup
  names : ∀ x ∈ d.entries, ∀ n ∈ x.1, IsName n ∧ size n ≤ nameBound
  above : ∀ x ∈ d.entries, d.isDirectoryAt x.1.dropLast = true

instance (d : Disk) : Decidable d.IsTree :=
  decidable_of_iff (d.isDirectoryAt d.here = true ∧ (d.entries.map Prod.fst).Nodup ∧
    (∀ x ∈ d.entries, ∀ n ∈ x.1, IsName n ∧ size n ≤ nameBound) ∧
    ∀ x ∈ d.entries, d.isDirectoryAt x.1.dropLast = true)
    ⟨fun ⟨here, distinct, names, above⟩ => ⟨here, distinct, names, above⟩,
      fun h => ⟨h.here, h.distinct, h.names, h.above⟩⟩

theorem isDirectoryAt_iff {d : Disk} {a : Place} :
    d.isDirectoryAt a = true ↔ d.entryAt? a = some .directory := beq_iff_eq

theorem mem_of_entryAt? {d : Disk} {a : Place} {e : Entry} (proper : a ≠ [])
    (h : d.entryAt? a = some e) : (a, e) ∈ d.entries := by
  rw [entryAt?, if_neg proper] at h
  obtain ⟨l, r, hl, -⟩ := List.lookup_eq_some_iff.mp h
  simp [hl]

namespace IsTree

variable {d : Disk} (tree : d.IsTree)

include tree

theorem entryAt?_of_mem {a : Place} {e : Entry} (proper : a ≠ []) (h : (a, e) ∈ d.entries) :
    d.entryAt? a = some e := by
  have unique := tree.distinct
  rw [entryAt?, if_neg proper]
  generalize d.entries = l at h unique
  induction l with
  | nil => simp at h
  | cons x l ih =>
    rw [List.map_cons, List.nodup_cons] at unique
    rcases List.mem_cons.mp h with rfl | h
    · exact List.lookup_cons_self
    · have other : (a == x.1) = false := by
        rw [beq_eq_false_iff_ne]
        rintro rfl
        exact unique.1 (List.mem_map.mpr ⟨_, h, rfl⟩)
      rw [List.lookup_cons, other]
      exact ih h unique.2

/-- Whatever is there lies in a directory, and so does that. -/
theorem directory_above {a b : Place} (h : (d.entryAt? (a ++ b)).isSome = true) (hb : b ≠ []) :
    d.isDirectoryAt a = true := by
  induction b using List.reverseRecOn with
  | nil => exact absurd rfl hb
  | append_singleton b n ih =>
    obtain ⟨e, he⟩ := Option.isSome_iff_exists.mp h
    have above := tree.above _ (mem_of_entryAt? (by simp) he)
    rw [← List.append_assoc, List.dropLast_concat] at above
    by_cases hn : b = []
    · rwa [hn, List.append_nil] at above
    · exact ih (by rw [isDirectoryAt_iff.mp above]; rfl) hn

theorem name_of_entry {a : Place} {n : List Char}
    (h : (d.entryAt? (a ++ [n])).isSome = true) : IsName n ∧ size n ≤ nameBound := by
  obtain ⟨e, he⟩ := Option.isSome_iff_exists.mp h
  exact tree.names _ (mem_of_entryAt? (by simp) he) n (by simp)

end IsTree

theorem followAll_append (d : Disk) (a : Place) (ps qs : List (List Char)) :
    d.followAll a (ps ++ qs) = d.followAll a ps >>= fun b => d.followAll b qs := List.foldlM_append

theorem follow_isSome {d : Disk} (tree : d.IsTree) {a b : Place} {s : List Char}
    (h : d.follow a s = .ok b) : (d.entryAt? b).isSome = true := by
  have directory {a : Place} (h : d.isDirectoryAt a = true) : (d.entryAt? a).isSome = true := by
    rw [isDirectoryAt_iff.mp h]
    rfl
  unfold follow at h
  split at h
  · cases h
  rename_i here
  have here : d.isDirectoryAt a = true := by simpa using here
  split at h
  · exact Except.ok.inj h ▸ directory here
  split at h
  · rw [← Except.ok.inj h]
    refine directory ?_
    by_cases ha : a = []
    · rw [ha]
      rfl
    · exact tree.above _ (mem_of_entryAt? ha (isDirectoryAt_iff.mp here))
  split at h
  · cases h
  split at h
  · rename_i there
    exact Except.ok.inj h ▸ there
  · cases h

theorem followAll_isSome {d : Disk} (tree : d.IsTree) {a b : Place} {ps : List (List Char)}
    (ha : (d.entryAt? a).isSome = true) (h : d.followAll a ps = .ok b) :
    (d.entryAt? b).isSome = true := by
  induction ps generalizing a with
  | nil => exact Except.ok.inj h ▸ ha
  | cons s ps ih =>
    obtain ⟨c, hc, h⟩ := bind_eq_ok h
    exact ih (follow_isSome tree hc) h

theorem followAll_trivial {d : Disk} {a : Place} (ha : d.isDirectoryAt a = true)
    {e : List (List Char)} (he : ∀ s ∈ e, Path.isTrivial s = true) : d.followAll a e = .ok a := by
  induction e with
  | nil => rfl
  | cons s e ih =>
    have first : d.follow a s = .ok a := by
      rw [follow, ha, if_neg (by simp), if_pos (he s List.mem_cons_self)]
    rw [followAll, List.foldlM_cons, first]
    exact ih fun t ht => he t (List.mem_cons_of_mem _ ht)

theorem follow_directory {d : Disk} {a b : Place} {s : List Char} (h : d.follow a s = .ok b) :
    d.isDirectoryAt a = true := by
  unfold follow at h
  split at h
  · cases h
  · rename_i directory
    simpa using directory

/-- What leads to a directory leads there also without the parts that say nothing. -/
theorem followAll_filter {d : Disk} {a b : Place} (hb : d.isDirectoryAt b = true)
    {ps : List (List Char)} :
    d.followAll a (ps.filter fun s => !Path.isTrivial s) = .ok b ↔ d.followAll a ps = .ok b := by
  induction ps generalizing a with
  | nil => rfl
  | cons s ps ih =>
    by_cases hs : Path.isTrivial s = true
    · rw [List.filter_cons_of_neg (by simp [hs]), ih]
      by_cases ha : d.isDirectoryAt a = true
      · have stays : d.follow a s = .ok a := by
          rw [follow, ha, if_neg (by simp), if_pos hs]
        rw [followAll, followAll, List.foldlM_cons, stays]
        rfl
      · constructor
        · intro h
          cases ps with
          | nil => exact absurd (Except.ok.inj h ▸ hb) ha
          | cons t ps =>
            obtain ⟨c, first, -⟩ := bind_eq_ok h
            exact absurd (follow_directory first) ha
        · intro h
          obtain ⟨c, first, -⟩ := bind_eq_ok h
          exact absurd (follow_directory first) ha
    · rw [List.filter_cons_of_pos (by simpa using hs), followAll, followAll, List.foldlM_cons,
        List.foldlM_cons]
      cases d.follow a s with
      | error fault => exact Iff.rfl
      | ok c => exact ih

def Component.part : Component → List Char
  | .root => []
  | .here => ['.']
  | .up => ['.', '.']
  | .name s => s

theorem map_part_filterMap (ps : List (List Char)) :
    (ps.filterMap Path.component?).map Component.part = ps.filter fun s => !Path.isTrivial s := by
  induction ps with
  | nil => rfl
  | cons s ps ih =>
    by_cases hs : Path.isTrivial s = true
    · rw [List.filterMap_cons, Path.component?_of_trivial hs, List.filter_cons_of_neg (by simp [hs]), ih]
    · have part : (Path.component? s).map Component.part = some s := by
        unfold Path.component?
        rw [if_neg hs]
        by_cases hu : s = ['.', '.']
        · rw [if_pos hu, hu]
          rfl
        · rw [if_neg hu]
          rfl
      obtain ⟨c, named, same⟩ := Option.map_eq_some_iff.mp part
      rw [List.filterMap_cons, named, List.map_cons, same, ih, List.filter_cons_of_pos (by simpa using hs)]

/-- The parts of a path can be followed, and lead to a place. -/
structure Reaches (d : Disk) (p : Path) (a : Place) : Prop where
  chars : p.chars ≠ []
  parts : d.followAll (d.startOf p) p.parts = .ok a

section

variable {d : Disk} {p : Path} {a : Place}

theorem reaches_of_place? (h : d.place? p = .ok a) : d.Reaches p a := by
  obtain ⟨u, asked, parts⟩ := bind_eq_ok h
  exact ⟨ask_eq_ok asked, parts⟩

theorem Reaches.place? (h : d.Reaches p a) : d.place? p = (ask p).map fun _ => a := by
  unfold Disk.place?
  rw [h.parts]
  cases ask p <;> rfl

theorem Reaches.landing (h : d.Reaches p a) : a = d.landing p := by
  rw [followAll_eq h.parts, leadAll_startOf d h.chars]

theorem Reaches.isSome (tree : d.IsTree) (h : d.Reaches p a) : (d.entryAt? a).isSome = true := by
  refine followAll_isSome tree ?_ h.parts
  unfold startOf
  split
  · rfl
  · rw [isDirectoryAt_iff.mp tree.here]
    rfl

theorem Path.exists_chars_join (p : Path) {q : Path} (hq : q.isAbsolute = false) :
    ∃ t, (p.join q).chars = p.chars ++ t := by
  unfold Path.join
  rw [if_neg (by simp [hq])]
  split
  · exact ⟨_, rfl⟩
  · exact ⟨_, rfl⟩

theorem startOf_join (d : Disk) (hp : p.chars ≠ []) {q : Path} (hq : q.isAbsolute = false) :
    d.startOf (p.join q) = d.startOf p := by
  obtain ⟨t, text⟩ := Path.exists_chars_join p hq
  obtain ⟨x, xs, hx⟩ := List.exists_cons_of_ne_nil hp
  rw [startOf, startOf, Path.isAbsolute, Path.isAbsolute, text, hx, List.cons_append,
    List.head?_cons, List.head?_cons]

/-- A directory is reached by every path with the same components. -/
theorem Reaches.congr {q : Path} (h : d.Reaches p a) (ha : d.isDirectoryAt a = true)
    (same : q.components = p.components) : d.Reaches q a := by
  have start : d.startOf q = d.startOf p := by
    have head : q.isAbsolute = p.isAbsolute := by
      rw [Bool.eq_iff_iff, Path.isAbsolute_iff_head, Path.isAbsolute_iff_head, same]
    rw [startOf, startOf, head]
  refine ⟨fun none' => h.chars (Path.components_eq_nil.mp (same ▸ Path.components_eq_nil.mpr none')), ?_⟩
  have parts := (followAll_filter ha).mpr h.parts
  rw [← map_part_filterMap, Path.filterMap_parts, ← same, ← Path.filterMap_parts,
    map_part_filterMap, followAll_filter ha] at parts
  rwa [start]

/-- A relative path behind one that leads to a directory is followed from there. -/
theorem Reaches.join {q : Path} {b : Place} (h : d.Reaches p a) (hq : q.isAbsolute = false)
    (hb : d.followAll a q.parts = .ok b) : d.Reaches (p.join q) b := by
  obtain ⟨ps, e, -, own, he, joined⟩ := Path.exists_parts_join h.chars hq
  obtain ⟨c, first, rest⟩ : ∃ c, d.followAll (d.startOf p) ps = .ok c ∧ d.followAll c e = .ok a := by
    have whole := h.parts
    rw [own, followAll_append] at whole
    exact bind_eq_ok whole
  have same : a = c := by
    rw [followAll_eq rest, Path.filterMap_of_trivial he]
    rfl
  obtain ⟨t, text⟩ := Path.exists_chars_join p hq
  refine ⟨by simp [text, h.chars], ?_⟩
  rw [startOf_join d h.chars hq, joined, followAll_append, first, ← same]
  exact hb

def Path.joinAll (p : Path) (names : List (List Char)) : Path :=
  names.foldl (fun p name => p.join ⟨name⟩) p

theorem Path.components_joinAll {names : List (List Char)} (h : ∀ n ∈ names, IsName n) (p : Path) :
    (p.joinAll names).components = p.components ++ names.map .name := by
  induction names generalizing p with
  | nil => simp [joinAll]
  | cons n names ih =>
    have rest := ih (fun m hm => h m (List.mem_cons_of_mem _ hm)) (p.join ⟨n⟩)
    rw [components_join_name (h n List.mem_cons_self), List.append_assoc] at rest
    exact rest

theorem Path.last_joinAll {names : List (List Char)} (proper : names ≠ [])
    (hn : IsName (names.getLast proper)) (p : Path) :
    (p.joinAll names).parts.getLast? = some (names.getLast proper) := by
  have ends : p.joinAll names = (p.joinAll names.dropLast).join ⟨names.getLast proper⟩ := by
    conv_lhs => rw [← List.dropLast_append_getLast proper, joinAll, List.foldl_append]
    rfl
  rw [ends, last_join_name hn]

theorem follow_name {n : List Char} (hd : d.isDirectoryAt a = true) (hn : IsName n)
    (short : size n ≤ nameBound) (h : (d.entryAt? (a ++ [n])).isSome = true) :
    d.follow a n = .ok (a ++ [n]) := by
  rw [follow, hd, if_neg (by simp), hn.proper, if_neg (by simp), if_neg hn.ne_up,
    if_neg (by omega), if_pos h]

/-- In a tree the names below a directory can be followed. -/
theorem Reaches.joinAll (tree : d.IsTree) (h : d.Reaches p a) {names : List (List Char)}
    (there : (d.entryAt? (a ++ names)).isSome = true) :
    d.Reaches (p.joinAll names) (a ++ names) := by
  induction names generalizing p a with
  | nil => simpa [Path.joinAll] using h
  | cons n names ih =>
    rw [← List.singleton_append, ← List.append_assoc] at there ⊢
    have here : (d.entryAt? (a ++ [n])).isSome = true := by
      by_cases hn : names = []
      · rwa [hn, List.append_nil] at there
      · rw [isDirectoryAt_iff.mp (tree.directory_above there hn)]
        rfl
    obtain ⟨named, short⟩ := tree.name_of_entry here
    refine ih (h.join (Path.name_relative named) ?_) there
    rw [Path.parts_name named, followAll, List.foldlM_cons,
      follow_name (tree.directory_above here (by simp)) named short here]
    rfl

/-- The files that a path leads to are the one that it names, or those below the directory that it
names. -/
theorem mem_walk {f : Path} : f ∈ d.walk p ↔ ∃ a, d.place? p = .ok a ∧
    if d.isDirectoryAt a then ∃ names, f = p.joinAll names ∧ names ≠ [] ∧
      ∃ e, (a ++ names, e) ∈ d.entries ∧ e ≠ .directory
    else f = p := by
  have below (a : Place) (names : List (List Char)) : names ∈ d.filesBelow a ↔
      names ≠ [] ∧ ∃ e, (a ++ names, e) ∈ d.entries ∧ e ≠ .directory := by
    unfold filesBelow
    rw [List.mem_mergeSort, List.mem_filterMap]
    constructor
    · rintro ⟨⟨b, e⟩, hb, h⟩
      dsimp only at h
      split at h
      · cases h
      rename_i file
      split at h
      · cases h
      · rename_i proper
        have hb' := List.isPrefixOf?_eq_some_iff_append_eq.mp h
        refine ⟨?_, e, by rwa [hb'], file⟩
        rintro rfl
        exact proper h
    · rintro ⟨proper, e, hb, file⟩
      refine ⟨(a ++ names, e), hb, ?_⟩
      have rest : a.isPrefixOf? (a ++ names) = some names :=
        List.isPrefixOf?_eq_some_iff_append_eq.mpr rfl
      dsimp only
      rw [if_neg file, rest]
      cases names with
      | nil => exact absurd rfl proper
      | cons n names => rfl
  unfold walk
  cases hp : d.place? p with
  | error e => simp
  | ok a =>
    simp only [Except.ok.injEq, exists_eq_left']
    split
    · rw [List.mem_map]
      constructor
      · rintro ⟨names, hn, rfl⟩
        exact ⟨names, rfl, (below a names).mp hn⟩
      · rintro ⟨names, rfl, hn⟩
        exact ⟨names, (below a names).mpr hn, rfl⟩
    · exact List.mem_singleton

/-- Whatever a walk finds in a tree can be followed, and is no directory. -/
theorem IsTree.reaches_of_mem_walk (tree : d.IsTree) {f : Path} (h : f ∈ d.walk p) :
    ∃ a e, d.Reaches f a ∧ d.entryAt? a = some e ∧ e ≠ .directory := by
  obtain ⟨a, place, found⟩ := mem_walk.mp h
  have reaches := reaches_of_place? place
  split at found
  · obtain ⟨names, rfl, proper, e, mem, file⟩ := found
    have entry := tree.entryAt?_of_mem (by simp [proper]) mem
    exact ⟨_, e, reaches.joinAll tree (by rw [entry]; rfl), entry, file⟩
  · rename_i directory
    obtain ⟨e, entry⟩ := Option.isSome_iff_exists.mp (reaches.isSome tree)
    refine ⟨a, e, found ▸ reaches, entry, ?_⟩
    rintro rfl
    exact directory (isDirectoryAt_iff.mpr entry)

/-- A file system that has the directories and other things of another one where they were. What was
at the places with a property is as it was. -/
structure Holds (K : Place → Prop) (d e : Disk) : Prop where
  here : e.here = d.here
  directory : ∀ a, d.isDirectoryAt a = true → e.isDirectoryAt a = true
  some : ∀ a, (d.entryAt? a).isSome = true → (e.entryAt? a).isSome = true
  same : ∀ a, K a → (d.entryAt? a).isSome = true → e.entryAt? a = d.entryAt? a

namespace Holds

variable {K : Place → Prop} {e g : Disk}

theorem refl (K : Place → Prop) (d : Disk) : Holds K d d :=
  ⟨rfl, fun _ h => h, fun _ h => h, fun _ _ _ => rfl⟩

theorem trans (h : Holds K d e) (h' : Holds K e g) : Holds K d g :=
  ⟨h'.here.trans h.here, fun a ha => h'.directory a (h.directory a ha),
    fun a ha => h'.some a (h.some a ha),
    fun a hk ha => (h'.same a hk (h.some a ha)).trans (h.same a hk ha)⟩

theorem put {x : Entry} (proper : a ≠ []) (free : d.isDirectoryAt a = false)
    (hk : K a → d.entryAt? a = none) : Holds K d (d.put a x) := by
  have at_place (b : Place) := entryAt?_put d x b proper
  refine ⟨rfl, fun b hb => ?_, fun b hb => ?_, fun b hb there => ?_⟩
  · have other : b ≠ a := by
      rintro rfl
      rw [free] at hb
      cases hb
    rw [isDirectoryAt, at_place, if_neg other]
    exact hb
  · rw [at_place]
    split
    · rfl
    · exact hb
  · have other : b ≠ a := by
      rintro rfl
      rw [hk hb] at there
      cases there
    rw [at_place, if_neg other]

theorem makeDirectory (h : d.makeDirectory p = .ok e) : Holds K d e := by
  obtain ⟨a, proper, free, rfl⟩ := makeDirectory_eq h
  exact put proper (by simp [isDirectoryAt, free]) fun _ => free

theorem write {s : String} (h : d.write p s = .ok e) (hk : ¬K (d.landing p)) : Holds K d e := by
  obtain ⟨proper, free, rfl⟩ := write_eq h
  exact put proper free fun h => absurd h hk

theorem follow (h : Holds K d e) {a b : Place} {s : List Char} (hb : d.follow a s = .ok b) :
    e.follow a s = .ok b := by
  unfold Disk.follow at hb ⊢
  split at hb
  · cases hb
  rename_i directory
  rw [h.directory a (by simpa using directory), if_neg (by simp)]
  by_cases ht : Path.isTrivial s = true
  · rwa [if_pos ht] at hb ⊢
  by_cases hu : s = ['.', '.']
  · rwa [if_neg ht, if_pos hu] at hb ⊢
  rw [if_neg ht, if_neg hu] at hb ⊢
  split at hb
  · cases hb
  rename_i short
  rw [if_neg short]
  split at hb
  · rename_i there
    rwa [if_pos (h.some _ there)]
  · cases hb

theorem followAll (h : Holds K d e) {a b : Place} {ps : List (List Char)}
    (hb : d.followAll a ps = .ok b) : e.followAll a ps = .ok b := by
  induction ps generalizing a with
  | nil => exact hb
  | cons s ps ih =>
    obtain ⟨c, hc, rest⟩ := bind_eq_ok hb
    rw [Disk.followAll, List.foldlM_cons, h.follow hc]
    exact ih rest

theorem reaches (h : Holds K d e) (hp : d.Reaches p a) : e.Reaches p a := by
  refine ⟨hp.chars, ?_⟩
  have start : e.startOf p = d.startOf p := by rw [startOf, startOf, h.here]
  rw [start]
  exact h.followAll hp.parts

theorem read (h : Holds K d e) (hp : d.Reaches p a) (ha : K a)
    (there : (d.entryAt? a).isSome = true) : e.read p = d.read p := by
  rw [Disk.read, Disk.read, (h.reaches hp).place?, hp.place?]
  cases ask p with
  | error fault => rfl
  | ok u => simp only [Except.map, bind, Except.bind, h.same a ha there]

end Holds

theorem has_of_read {s : String} (h : d.read p = .ok s) : d.has p = true := by
  obtain ⟨a, place, content⟩ := bind_eq_ok h
  rw [has, find?, place]
  cases there : d.entryAt? a with
  | some x => simp [there]
  | none => simp [there] at content

theorem read_write {e : Disk} {s : String} (h : d.write p s = .ok e) : e.read p = .ok s := by
  have holds : Holds (fun _ => False) d e := .write h id
  obtain ⟨a, n, asked, followed, directory, last, named, short, -, -, rfl⟩ := write_eq_ok h
  have name := isName_of_last last named
  have there : (d.put (a ++ [n]) (.file s)).entryAt? (a ++ [n]) = some (.file s) := by
    rw [entryAt?_put d _ _ (by simp), if_pos rfl]
  have start : (d.put (a ++ [n]) (.file s)).startOf p = d.startOf p := rfl
  have place : (d.put (a ++ [n]) (.file s)).place? p = .ok (a ++ [n]) := by
    obtain ⟨ps, parts⟩ := List.getLast?_eq_some_iff.mp last
    rw [parts, List.dropLast_concat] at followed
    rw [Disk.place?, asked, parts, start]
    change Disk.followAll _ _ _ = _
    rw [followAll_append, holds.followAll followed]
    change Disk.followAll _ _ [n] = _
    rw [Disk.followAll, List.foldlM_cons, follow_name (holds.directory a directory) name short
      (by rw [there]; rfl)]
    rfl
  rw [Disk.read, place]
  simp only [bind, Except.bind, there]
  rfl

theorem mem_entries_put {b : Place} {x y : Entry} (other : b ≠ a) :
    (b, y) ∈ (d.put a x).entries ↔ (b, y) ∈ d.entries := by
  simp [put, other]

theorem IsTree.write (tree : d.IsTree) {e : Disk} {s : String} (h : d.write p s = .ok e) :
    e.IsTree := by
  have holds : Holds (fun _ => False) d e := .write h id
  obtain ⟨a, n, -, -, directory, last, named, short, free, -, rfl⟩ := write_eq_ok h
  refine ⟨holds.directory _ tree.here, ?_, ?_, ?_⟩
  · have others := (tree.distinct.sublist
      ((List.filter_sublist (p := (·.1 != a ++ [n]))).map Prod.fst))
    refine List.nodup_cons.mpr ⟨fun mem => ?_, others⟩
    obtain ⟨x, hx, same⟩ := List.mem_map.mp mem
    simpa [same] using (List.mem_filter.mp hx).2
  · intro x hx m hm
    rcases List.mem_cons.mp hx with rfl | hx
    · rcases List.mem_append.mp hm with hm | hm
      · have there := mem_of_entryAt? (List.ne_nil_of_mem hm) (isDirectoryAt_iff.mp directory)
        exact tree.names _ there m hm
      · rw [List.mem_singleton.mp hm]
        exact ⟨isName_of_last last named, short⟩
    · exact tree.names x (List.mem_filter.mp hx).1 m hm
  · intro x hx
    rcases List.mem_cons.mp hx with rfl | hx
    · rw [List.dropLast_concat]
      exact holds.directory a directory
    · exact holds.directory _ (tree.above x (List.mem_filter.mp hx).1)

/-- Where a file is written behind a path, the path leads to the directory that it is put in. -/
theorem reaches_of_write {n : List Char} (hn : IsName n) {e : Disk} {s : String}
    (h : d.write (p.join ⟨n⟩) s = .ok e) : ∃ a, d.Reaches (p.join (.ofString ".")) a ∧
      d.isDirectoryAt a = true ∧ d.landing (p.join ⟨n⟩) = a ++ [n] := by
  obtain ⟨a, m, -, followed, directory, last, -, -, -, lands, -⟩ := write_eq_ok h
  obtain rfl : n = m := Option.some.inj ((Path.last_join_name hn p).symm.trans last)
  have dot : d.followAll a (Path.ofString ".").parts = .ok a :=
    followAll_trivial directory (by decide)
  refine ⟨a, ?_, directory, lands⟩
  by_cases hp : p.chars = []
  · rw [Path.join_of_nil hp, Path.parts_name hn] at followed
    have here : d.here = a := by
      have start : d.startOf ⟨n⟩ = d.here := by
        rw [startOf, Path.name_relative hn, if_neg (by simp)]
      exact start ▸ Except.ok.inj followed
    rw [Path.join_of_nil hp]
    refine ⟨by decide, ?_⟩
    have start : d.startOf (.ofString ".") = a := by
      rw [startOf, show (Path.ofString ".").isAbsolute = false by decide, if_neg (by simp), here]
    rw [start]
    exact dot
  · obtain ⟨ps, e, -, own, trivial', joined⟩ := Path.exists_parts_join hp (Path.name_relative hn)
    rw [joined, Path.parts_name hn, List.dropLast_concat, startOf_join d hp (Path.name_relative hn)]
      at followed
    have reaches : d.Reaches p a := by
      refine ⟨hp, ?_⟩
      rw [own, followAll_append, followed]
      exact followAll_trivial directory trivial'
    exact reaches.join (by decide) dot

theorem lasting_holds (K : Place → Prop) : Lasting (Holds K) := ⟨.refl K, .trans⟩

end

end StyleExports.Disk
