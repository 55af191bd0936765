import Mathlib.Data.List.Basic
import StyleExports.Disk.Path
import StyleExports.Proofs.Text.Separator

namespace StyleExports.Disk

open Text

/-- A part of a path that names something. -/
structure IsName (s : List Char) : Prop where
  proper : Path.isTrivial s = false
  ne_up : s ≠ ['.', '.']
  slash : '/' ∉ s

namespace Path

theorem parts_ne_nil (p : Path) : p.parts ≠ [] := split_ne_nil _ _

theorem slash_not_mem {p : Path} {s : List Char} (h : s ∈ p.parts) : '/' ∉ s := fun hc => by
  have := not_of_mem_split h hc
  simp at this

theorem parts_ofParts {ps : List (List Char)} (hn : ps ≠ []) (h : ∀ s ∈ ps, '/' ∉ s) :
    (ofParts ps).parts = ps := by
  have free {s : List Char} (hs : '/' ∉ s) : ∀ c ∈ s, (c == '/') = false := by
    intro c hc
    rw [beq_eq_false_iff_ne]
    rintro rfl
    exact hs hc
  induction ps with
  | nil => exact absurd rfl hn
  | cons s ps ih =>
    have hs := free (h s List.mem_cons_self)
    cases ps with
    | nil => exact split_of_none hs
    | cons t ps =>
      have rest := ih (by simp) fun u hu => h u (List.mem_cons_of_mem _ hu)
      have text : (ofParts (s :: t :: ps)).chars = s ++ '/' :: (ofParts (t :: ps)).chars := by
        simp [ofParts, Text.join]
      rw [parts, text, split_append_cons hs rfl]
      exact congrArg (s :: ·) rest

theorem component?_of_trivial {s : List Char} (h : isTrivial s = true) : component? s = none := by
  rw [component?, if_pos h]

theorem component?_isSome {s : List Char} (h : isTrivial s = false) : ∃ c, component? s = some c := by
  unfold component?
  rw [h]
  by_cases hu : s = ['.', '.'] <;> simp [hu]

theorem component?_name {s : List Char} (h : IsName s) : component? s = some (.name s) := by
  rw [component?, h.proper, if_neg (by simp), if_neg h.ne_up]

theorem component?_eq_name {s n : List Char} (h : component? s = some (.name n)) :
    s = n ∧ isTrivial n = false ∧ n ≠ ['.', '.'] := by
  unfold component? at h
  split at h
  · simp at h
  split at h
  · simp at h
  · rename_i ht hu
    obtain rfl := Component.name.inj (Option.some.inj h)
    exact ⟨rfl, by simpa using ht, hu⟩

theorem component?_ne {s : List Char} : component? s ≠ some .root ∧ component? s ≠ some .here := by
  unfold component?
  split
  · simp
  split <;> simp

theorem components_of_parts {p : Path} {s : List Char} {ps : List (List Char)}
    (h : p.parts = s :: ps) :
    p.components = (firstComponent? s (!ps.isEmpty)).toList ++ ps.filterMap component? := by
  rw [components, h]

theorem firstComponent?_of_ne {s : List Char} (h : s ≠ []) (a b : Bool) :
    firstComponent? s a = firstComponent? s b := by
  unfold firstComponent?
  rw [if_neg h, if_neg h]

theorem firstComponent?_eq_none {s : List Char} {more : Bool}
    (h : firstComponent? s more = none) : s = [] ∧ more = false := by
  unfold firstComponent? at h
  split at h
  · rename_i hs
    cases more <;> simp_all
  · split at h
    · simp at h
    · rename_i hn hd
      have ht : isTrivial s = false := by simp [isTrivial, hn, hd]
      obtain ⟨c, hc⟩ := component?_isSome ht
      rw [hc] at h
      cases h

theorem chars_eq_nil {p : Path} (h : p.parts = [[]]) : p.chars = [] := by
  have hp := ofParts_parts p
  rw [h] at hp
  exact (congrArg Path.chars hp).symm

theorem components_eq_nil {p : Path} : p.components = [] ↔ p.chars = [] := by
  constructor
  · intro h
    obtain ⟨s, ps, hp⟩ := List.exists_cons_of_ne_nil p.parts_ne_nil
    rw [components_of_parts hp] at h
    obtain ⟨hs, hps⟩ := List.append_eq_nil_iff.mp h
    obtain ⟨rfl, hm⟩ := firstComponent?_eq_none (Option.toList_eq_nil_iff.mp hs)
    obtain rfl : ps = [] := by simpa using hm
    exact chars_eq_nil hp
  · intro h
    rw [components, parts, h]
    rfl

theorem filterMap_of_trivial {e : List (List Char)} (h : ∀ s ∈ e, isTrivial s = true) :
    e.filterMap component? = [] :=
  List.filterMap_eq_nil_iff.mpr fun s hs => component?_of_trivial (h s hs)

theorem filterMap_trimmed (ps : List (List Char)) :
    (trimmed ps).filterMap component? = ps.filterMap component? := by
  obtain ⟨e, he, hps⟩ := exists_dropEndWhile isTrivial ps
  conv_rhs => rw [hps, List.filterMap_append, filterMap_of_trivial he, List.append_nil]
  rfl

theorem mem_of_mem_trimmed {ps : List (List Char)} {s : List Char} (h : s ∈ trimmed ps) :
    s ∈ ps := by
  obtain ⟨e, -, hps⟩ := exists_dropEndWhile isTrivial ps
  rw [hps]
  exact List.mem_append_left _ h

/-- A relative path behind another path takes the place of the trivial parts at its end, if there
are any. -/
theorem exists_parts_join {p q : Path} (hp : p.chars ≠ []) (hq : q.isAbsolute = false) :
    ∃ ps e, ps ≠ [] ∧ p.parts = ps ++ e ∧ (∀ s ∈ e, isTrivial s = true) ∧
      (p.join q).parts = ps ++ q.parts := by
  by_cases hl : p.chars.getLast? = some '/'
  · obtain ⟨u, hu⟩ := List.getLast?_eq_some_iff.mp hl
    refine ⟨split (· == '/') u, [[]], split_ne_nil _ u, ?_, by simp [isTrivial], ?_⟩
    · rw [parts, hu]
      exact split_append_separator '/' u []
    · rw [join, if_neg (by simp [hq]), if_pos (.inr hl), parts, hu, List.append_assoc]
      exact split_append_separator '/' u q.chars
  · refine ⟨p.parts, [], p.parts_ne_nil, (List.append_nil _).symm, by simp, ?_⟩
    rw [join, if_neg (by simp [hq]), if_neg (by simp [hp, hl]), parts]
    exact split_append_separator '/' p.chars q.chars

/-- A relative path behind another path. -/
theorem components_join {p q : Path} (hp : p.chars ≠ []) (hq : q.isAbsolute = false) :
    (p.join q).components = p.components ++ q.parts.filterMap component? := by
  obtain ⟨ps, e, hne, own, he, joined⟩ := exists_parts_join hp hq
  obtain ⟨s, ps, rfl⟩ := List.exists_cons_of_ne_nil hne
  rw [List.cons_append] at own joined
  have more : (!(ps ++ q.parts).isEmpty) = true := by simp [q.parts_ne_nil]
  have first : firstComponent? s (!(ps ++ e).isEmpty) = firstComponent? s true := by
    by_cases hn : s = []
    · subst hn
      cases h : ps ++ e with
      | nil => exact absurd (chars_eq_nil (h ▸ own)) hp
      | cons => rfl
    · exact firstComponent?_of_ne hn _ _
  rw [components_of_parts joined, components_of_parts own, more, first, List.filterMap_append,
    List.filterMap_append, filterMap_of_trivial he, List.append_nil, List.append_assoc]

theorem mem_of_mem_join {p q : Path} {c : Char} (h : c ∈ (p.join q).chars) :
    c ∈ p.chars ∨ c = '/' ∨ c ∈ q.chars := by
  unfold join at h
  split at h
  · exact .inr (.inr h)
  split at h
  · exact (List.mem_append.mp h).imp_right .inr
  · exact (List.mem_append.mp h).imp_right List.mem_cons.mp

theorem size_join_le (p : Path) {q r : Path} (hq : q.isAbsolute = false) (hr : r.isAbsolute = false)
    (h : size q.chars ≤ size r.chars) : size (p.join q).chars ≤ size (p.join r).chars := by
  unfold join
  simp only [hq, hr, Bool.false_eq_true, if_false]
  split <;> simp only [size_append, size_cons] <;> omega

theorem join_of_nil {p q : Path} (hp : p.chars = []) : p.join q = q := by
  unfold join
  split
  · rfl
  · rw [if_pos (.inl hp), hp, List.nil_append]

theorem parts_name {n : List Char} (hn : IsName n) : (⟨n⟩ : Path).parts = [n] :=
  split_of_none fun c hc => by
    rw [beq_eq_false_iff_ne]
    rintro rfl
    exact hn.slash hc

theorem name_relative {n : List Char} (hn : IsName n) : (⟨n⟩ : Path).isAbsolute = false := by
  rw [isAbsolute, beq_eq_false_iff_ne]
  intro h
  exact hn.slash (List.mem_of_head? h)

theorem components_join_name {n : List Char} (hn : IsName n) (p : Path) :
    (p.join ⟨n⟩).components = p.components ++ [.name n] := by
  have hne : n ≠ [] := by
    rintro rfl
    exact absurd hn.proper (by decide)
  by_cases hp : p.chars = []
  · have dot : n ≠ ['.'] := by
      rintro rfl
      exact absurd hn.proper (by decide)
    rw [join_of_nil hp, components_eq_nil.mpr hp, components_of_parts (parts_name hn), firstComponent?,
      if_neg hne, if_neg dot, component?_name hn]
    rfl
  · rw [components_join hp (name_relative hn), parts_name hn, List.filterMap_cons, component?_name hn]
    rfl

theorem last_join_name {n : List Char} (hn : IsName n) (p : Path) :
    (p.join ⟨n⟩).parts.getLast? = some n := by
  by_cases hp : p.chars = []
  · rw [join_of_nil hp, parts_name hn]
    rfl
  · obtain ⟨ps, e, -, -, -, joined⟩ := exists_parts_join hp (name_relative hn)
    rw [joined, parts_name hn, List.getLast?_concat]

theorem components_concat_slash {p : Path} (hp : p.chars ≠ []) :
    (⟨p.chars ++ ['/']⟩ : Path).components = p.components := by
  obtain ⟨s, ps, own⟩ := List.exists_cons_of_ne_nil p.parts_ne_nil
  have whole : (⟨p.chars ++ ['/']⟩ : Path).parts = s :: (ps ++ [[]]) := by
    rw [parts, split_append_separator '/', ← parts, own]
    rfl
  have first : firstComponent? s (!(ps ++ [[]]).isEmpty) = firstComponent? s (!ps.isEmpty) := by
    by_cases hs : s = []
    · have more : ps ≠ [] := by
        rintro rfl
        exact hp (chars_eq_nil (hs ▸ own))
      cases ps with
      | nil => exact absurd rfl more
      | cons t ts => rfl
    · exact firstComponent?_of_ne hs _ _
  rw [components_of_parts whole, components_of_parts own, first, List.filterMap_append,
    filterMap_of_trivial (e := [[]]) (by simp [isTrivial]), List.append_nil]

theorem components_ofTrimmed {s : List Char} {ps : List (List Char)} (hs : '/' ∉ s)
    (hps : ∀ t ∈ ps, '/' ∉ t) :
    (ofTrimmed s ps).components = (firstComponent? s true).toList ++ ps.filterMap component? := by
  unfold ofTrimmed
  by_cases h : s = [] ∧ ps = []
  · rw [if_pos h, h.1, h.2]
    decide
  · have whole : (ofParts (s :: ps)).parts = s :: ps :=
      parts_ofParts (by simp) (by simpa using ⟨hs, hps⟩)
    rw [if_neg h, components_of_parts whole]
    by_cases hn : s = []
    · have more : (!ps.isEmpty) = true := by simpa using fun he => h ⟨hn, he⟩
      rw [more]
    · rw [firstComponent?_of_ne hn]

/-- A parent says all that the path says but the last component. -/
theorem components_parent? {p q : Path} (h : p.parent? = some q) :
    q.components = p.components.dropLast := by
  obtain ⟨s, ps, hp⟩ := List.exists_cons_of_ne_nil p.parts_ne_nil
  have hs : '/' ∉ s := slash_not_mem (hp ▸ List.mem_cons_self)
  have hps : ∀ t ∈ ps, '/' ∉ t := fun t ht => slash_not_mem (hp ▸ List.mem_cons_of_mem _ ht)
  unfold parent? at h
  rw [hp] at h
  simp only at h
  rw [components_of_parts hp, ← filterMap_trimmed ps]
  cases ht : trimmed ps with
  | nil =>
    simp only [ht] at h
    split at h
    · simp at h
    · obtain rfl := Option.some.inj h
      cases firstComponent? s (!ps.isEmpty) <;> rfl
  | cons t ts =>
    simp only [ht, Option.some.injEq] at h
    have last : isTrivial ((t :: ts).getLast (by simp)) = false := by
      have hl := last_dropEndWhile isTrivial ps
      change ∀ c ∈ (trimmed ps).getLast?, _ at hl
      rw [ht] at hl
      exact hl _ (List.getLast?_eq_some_getLast (by simp))
    obtain ⟨c, hc⟩ := component?_isSome last
    have others : (t :: ts).filterMap component? =
        (t :: ts).dropLast.filterMap component? ++ [c] := by
      conv_lhs => rw [← List.dropLast_append_getLast (l := t :: ts) (by simp)]
      rw [List.filterMap_append, List.filterMap_cons, hc]
      rfl
    have more : (!ps.isEmpty) = true := by
      cases ps with
      | nil => simp [trimmed, dropEndWhile] at ht
      | cons u us => rfl
    have free : ∀ u ∈ trimmed (t :: ts).dropLast, '/' ∉ u := by
      intro u hu
      have hu := List.dropLast_subset _ (mem_of_mem_trimmed hu)
      rw [← ht] at hu
      exact hps u (mem_of_mem_trimmed hu)
    rw [← h, components_ofTrimmed hs free, filterMap_trimmed, others, more, ← List.append_assoc,
      List.dropLast_concat]

theorem components_of_parent?_eq_none {p : Path} (h : p.parent? = none) :
    p.components = [] ∨ p.components = [.root] := by
  obtain ⟨s, ps, hp⟩ := List.exists_cons_of_ne_nil p.parts_ne_nil
  unfold parent? at h
  rw [hp] at h
  simp only at h
  cases ht : trimmed ps with
  | cons t ts => simp [ht] at h
  | nil =>
    simp only [ht] at h
    split at h
    · rename_i hs
      rw [components_of_parts hp, ← filterMap_trimmed, ht, hs]
      cases ps <;> simp [firstComponent?]
    · simp at h

theorem exists_parent {p : Path} {cs : List Component} {names : List (List Char)} (front : cs ≠ [])
    (proper : names ≠ []) (h : p.components = cs ++ names.map .name) :
    ∃ q, p.parent? = some q ∧ q.components = cs ++ names.dropLast.map .name := by
  cases hp : p.parent? with
  | none =>
    have long : 2 ≤ p.components.length := by
      rw [h, List.length_append, List.length_map]
      have := List.length_pos_iff.mpr front
      have := List.length_pos_iff.mpr proper
      omega
    rcases components_of_parent?_eq_none hp with short | short <;> rw [short] at long <;> simp at long
  | some q =>
    refine ⟨q, rfl, ?_⟩
    rw [components_parent? hp, h, List.dropLast_append_of_ne_nil (by simpa using proper),
      ← List.map_dropLast]

theorem filterMap_dropParts (n : Nat) (ps : List (List Char)) :
    (dropParts n ps).filterMap component? = (ps.filterMap component?).drop n := by
  have skip (ps : List (List Char)) :
      (ps.dropWhile isTrivial).filterMap component? = ps.filterMap component? := by
    obtain ⟨b, hb, hps⟩ := exists_dropWhile isTrivial ps
    conv_rhs => rw [hps, List.filterMap_append, filterMap_of_trivial hb, List.nil_append]
  induction n generalizing ps with
  | zero => exact skip ps
  | succ n ih =>
    rw [dropParts, ih, ← skip ps]
    cases h : ps.dropWhile isTrivial with
    | nil => simp
    | cons s qs =>
      obtain ⟨c, hc⟩ := component?_isSome (head_dropWhile_of_cons h)
      rw [List.filterMap_cons, hc]
      rfl

theorem dropParts_suffix (n : Nat) (ps : List (List Char)) : dropParts n ps <:+ ps := by
  induction n generalizing ps with
  | zero => exact List.dropWhile_suffix _
  | succ n ih =>
    exact (ih _).trans ((List.tail_suffix _).trans (List.dropWhile_suffix _))

theorem head_dropParts (n : Nat) (ps : List (List Char)) :
    ∀ s ∈ (dropParts n ps).head?, isTrivial s = false := by
  induction n generalizing ps with
  | zero =>
    intro s hs
    have hd := List.head?_dropWhile_not isTrivial ps
    change s ∈ (ps.dropWhile isTrivial).head? at hs
    rw [Option.mem_def.mp hs] at hd
    simpa using hd
  | succ n ih => exact ih _

/-- A path of parts of which the first is a component has the components that the parts are. -/
theorem components_ofParts {ps : List (List Char)} (free : ∀ s ∈ ps, '/' ∉ s)
    (proper : ∀ s ∈ ps.head?, isTrivial s = false) :
    (ofParts ps).components = ps.filterMap component? := by
  cases ps with
  | nil => rfl
  | cons s ps =>
    have first : isTrivial s = false := proper s rfl
    have hne : s ≠ [] := by
      rintro rfl
      exact absurd first (by decide)
    have hdot : s ≠ ['.'] := by
      rintro rfl
      exact absurd first (by decide)
    obtain ⟨c, hc⟩ := component?_isSome first
    rw [components_of_parts (parts_ofParts (by simp) free), firstComponent?, if_neg hne, if_neg hdot,
      List.filterMap_cons, hc]
    rfl

theorem filterMap_parts (p : Path) : p.parts.filterMap component? =
    p.components.filter fun c => c != .root && c != .here := by
  have behind (ps : List (List Char)) : (ps.filterMap component?).filter
      (fun c => c != .root && c != .here) = ps.filterMap component? := by
    refine List.filter_eq_self.mpr fun c hc => ?_
    obtain ⟨s, -, hs⟩ := List.mem_filterMap.mp hc
    have other := component?_ne (s := s)
    rw [hs] at other
    simpa using other
  obtain ⟨s, ps, hp⟩ := List.exists_cons_of_ne_nil p.parts_ne_nil
  rw [hp, components_of_parts hp, List.filter_append, behind]
  by_cases hs : s = []
  · subst hs
    cases ps <;> rfl
  by_cases hd : s = ['.']
  · subst hd
    rfl
  · have same : firstComponent? s (!ps.isEmpty) = component? s := by
      rw [firstComponent?, if_neg hs, if_neg hd]
    have first := behind [s]
    rw [same]
    rw [List.filterMap_cons] at first ⊢
    cases hc : component? s with
    | none => rfl
    | some c =>
      rw [hc] at first
      exact congrArg (· ++ ps.filterMap component?) first.symm

theorem exists_strip? {base p : Path} (h : base.components <+: p.components) :
    ∃ q, base.strip? p = some q := by
  unfold strip?
  rw [if_pos (List.isPrefixOf_iff_prefix.mpr h)]
  obtain ⟨s, ps, hp⟩ := List.exists_cons_of_ne_nil p.parts_ne_nil
  rw [hp]
  cases base.components with
  | nil =>
    dsimp only
    split
    · exact ⟨_, rfl⟩
    · exact ⟨_, rfl⟩
  | cons c cs => exact ⟨_, rfl⟩

/-- The rest of a path behind another says what the path says behind it. -/
theorem components_strip? {base p q : Path} (h : base.strip? p = some q) :
    base.components <+: p.components ∧
      q.components = p.components.drop base.components.length := by
  unfold strip? at h
  split at h
  case isFalse => simp at h
  rename_i hb
  refine ⟨List.isPrefixOf_iff_prefix.mp hb, ?_⟩
  obtain ⟨s, ps, hp⟩ := List.exists_cons_of_ne_nil p.parts_ne_nil
  have hs : '/' ∉ s := slash_not_mem (hp ▸ List.mem_cons_self)
  have hps : ∀ t ∈ ps, '/' ∉ t := fun t ht => slash_not_mem (hp ▸ List.mem_cons_of_mem _ ht)
  rw [hp] at h
  cases hc : base.components with
  | nil =>
    simp only [hc] at h
    split at h
    · rw [← Option.some.inj h]
      rfl
    · rename_i hn
      have more : (!ps.isEmpty) = true := by simpa using hn
      have free : ∀ t ∈ trimmed ps, '/' ∉ t := fun t ht => hps t (mem_of_mem_trimmed ht)
      rw [← Option.some.inj h, components_ofTrimmed hs free, filterMap_trimmed,
        components_of_parts hp, more]
      rfl
  | cons c cs =>
    simp only [hc, Option.some.injEq] at h
    have first : ∃ d, firstComponent? s (!ps.isEmpty) = some d := by
      cases hf : firstComponent? s (!ps.isEmpty) with
      | some d => exact ⟨d, rfl⟩
      | none =>
        obtain ⟨rfl, hm⟩ := firstComponent?_eq_none hf
        obtain rfl : ps = [] := by simpa using hm
        rw [components_of_parts hp, hf, hc] at hb
        simp at hb
    obtain ⟨d, hd⟩ := first
    have rest : (trimmed (dropParts cs.length ps)).filterMap component? =
        p.components.drop (c :: cs).length := by
      rw [filterMap_trimmed, filterMap_dropParts, components_of_parts hp, hd]
      rfl
    rw [← rest, ← h]
    refine components_ofParts (fun u hu => ?_) fun t ht => head_dropParts cs.length ps t ?_
    · exact hps u ((dropParts_suffix _ _).mem (mem_of_mem_trimmed hu))
    · obtain ⟨e, -, he⟩ := exists_dropEndWhile isTrivial (dropParts cs.length ps)
      change _ = trimmed _ ++ e at he
      obtain ⟨ts, hts⟩ := List.head?_eq_some_iff.mp ht
      rw [he, hts]
      rfl

theorem fileName?_eq_some {p : Path} {s : List Char} (h : p.fileName? = some s) :
    ∃ cs, p.components = cs ++ [.name s] := by
  unfold fileName? at h
  split at h
  · rename_i hl
    obtain rfl := Option.some.inj h
    exact List.getLast?_eq_some_iff.mp hl
  · simp at h

end Path

end StyleExports.Disk
