import Mathlib.Data.List.Basic
import StyleExports.Synthesis

namespace StyleExports.EsModule

namespace Item

/-- What remains of an item without its default exports and the names that do not stay. -/
def strip (stays : String → Bool) (i : Item) : List Item :=
  match i.kind with
  | .exportDefault _ => []
  | .exportList _ _ => (i.retainSpecifiers fun n => decide (n ≠ "default") && stays n).toList
  | _ => i.retainNames stays

section

variable {i : Item}

theorem retainSpecifiers_of_not_list {keep : String → Bool}
    (h : ∀ specifiers source, i.kind ≠ .exportList specifiers source) :
    i.retainSpecifiers keep = some i := by
  unfold retainSpecifiers
  split
  · exact absurd ‹_› (h _ _)
  · rfl

def kept (keep : String → Bool) (specifiers : List Specifier) : List Specifier :=
  specifiers.filter fun e => keep e.exported

theorem kept_kept (f g : String → Bool) (specifiers : List Specifier) :
    kept g (kept f specifiers) = kept (fun n => f n && g n) specifiers := by
  unfold kept
  rw [List.filter_filter]
  exact List.filter_congr fun e _ => Bool.and_comm _ _

theorem kept_eq_self {keep : String → Bool} {specifiers : List Specifier}
    (h : (kept keep specifiers).length = specifiers.length) : kept keep specifiers = specifiers :=
  List.Sublist.eq_of_length List.filter_sublist h

/-- A list written anew. -/
def rewritten (i : Item) (specifiers : List Specifier) (source : Option String) : Item :=
  { i with text := (listText specifiers source).toList, kind := .exportList specifiers source }

theorem retainSpecifiers_list {keep : String → Bool} {specifiers : List Specifier}
    {source : Option String} (hi : i.kind = .exportList specifiers source) :
    i.retainSpecifiers keep =
      if (kept keep specifiers).length = specifiers.length then some i
      else if (kept keep specifiers).isEmpty then none
      else some (i.rewritten (kept keep specifiers) source) := by
  unfold retainSpecifiers
  rw [hi]
  rfl

/-- Keeping some specifiers and then some of those keeps what both tests keep. -/
theorem retainSpecifiers_bind (f g : String → Bool) (i : Item) :
    (i.retainSpecifiers f).bind (·.retainSpecifiers g) =
      i.retainSpecifiers fun n => f n && g n := by
  by_cases hl : ∃ specifiers source, i.kind = .exportList specifiers source
  case neg =>
    have hn : ∀ specifiers source, i.kind ≠ .exportList specifiers source :=
      fun a b h => hl ⟨a, b, h⟩
    simp [retainSpecifiers_of_not_list hn]
  obtain ⟨specifiers, source, hi⟩ := hl
  rw [retainSpecifiers_list hi, retainSpecifiers_list hi, ← kept_kept f g specifiers]
  have hle : (kept g (kept f specifiers)).length ≤ (kept f specifiers).length :=
    List.length_filter_le _ _
  have hlf : (kept f specifiers).length ≤ specifiers.length := List.length_filter_le _ _
  by_cases h1 : (kept f specifiers).length = specifiers.length
  · rw [if_pos h1, kept_eq_self h1, Option.bind_some, retainSpecifiers_list hi]
  have h2 : (kept g (kept f specifiers)).length ≠ specifiers.length := by omega
  rw [if_neg h1, if_neg h2]
  by_cases h3 : (kept f specifiers).isEmpty
  · rw [if_pos h3, Option.bind_none, List.isEmpty_iff.mp h3]
    rfl
  have hk : (i.rewritten (kept f specifiers) source).kind =
      .exportList (kept f specifiers) source := rfl
  rw [if_neg h3, Option.bind_some, retainSpecifiers_list hk]
  by_cases h4 : (kept g (kept f specifiers)).length = (kept f specifiers).length
  · rw [if_pos h4, kept_eq_self h4, if_neg h3]
  · rw [if_neg h4]
    rfl

theorem kind_of_retainSpecifiers {keep : String → Bool} {specifiers : List Specifier}
    {source : Option String} {j : Item} (hi : i.kind = .exportList specifiers source)
    (h : i.retainSpecifiers keep = some j) : j.kind = .exportList (kept keep specifiers) source := by
  rw [retainSpecifiers_list hi] at h
  split at h
  · rename_i hl
    rw [← Option.some.inj h, kept_eq_self hl, hi]
  · split at h
    · simp at h
    · rw [← Option.some.inj h]
      rfl

theorem retainNames_of_list (stays : String → Bool) {specifiers : List Specifier}
    {source : Option String} (hi : i.kind = .exportList specifiers source) :
    i.retainNames stays = [i] := by
  unfold retainNames
  rw [hi]

/-- The names of a declaration that stay exported are kept when lists are looked through again. -/
theorem filterMap_retainNames (stays : String → Bool)
    (hi : ∀ specifiers source, i.kind ≠ .exportList specifiers source) :
    (i.retainNames stays).filterMap (retainSpecifiers fun n => n == "default" || stays n) =
      i.retainNames stays := by
  have self : i.retainSpecifiers (fun n => n == "default" || stays n) = some i :=
    retainSpecifiers_of_not_list hi
  unfold retainNames
  split
  · rename_i names hn
    simp only
    split
    · simp [self]
    split
    · rfl
    · have hd : ({ i with text := withoutExport i.text, kind := .localDeclaration names } :
          Item).retainSpecifiers (fun n => n == "default" || stays n) = some _ :=
        retainSpecifiers_of_not_list (by simp)
      have hl : (i.listOf (names.filter stays)).retainSpecifiers
          (fun n => n == "default" || stays n) = some (i.listOf (names.filter stays)) := by
        rw [retainSpecifiers_list rfl, if_pos]
        rw [kept, List.filter_eq_self.mpr]
        intro e he
        obtain ⟨n, hn, rfl⟩ := List.mem_map.mp he
        simp [(List.mem_filter.mp hn).2]
      simp [hd, hl]
  · split
    · simp [self]
    · rfl
  · simp [self]

end

end Item

section

variable (stays : String → Bool)

theorem retainExports_removeDefault_list {i : Item} {specifiers : List Specifier}
    {source : Option String} (hi : i.kind = .exportList specifiers source) :
    retainExports stays (removeDefault [i]) = i.strip stays := by
  have hd : i.isDefault = false := by
    unfold Item.isDefault
    rw [hi]
  have hs : i.strip stays =
      (i.retainSpecifiers fun n => decide (n ≠ "default") && stays n).toList := by
    unfold Item.strip
    rw [hi]
  -- The second pass lets the name `default` stay, which the first has removed.
  have hf : (fun n => decide (n ≠ "default") && stays n) =
      fun n : String => decide (n ≠ "default") && (n == "default" || stays n) := by
    funext n
    by_cases hn : n = "default"
    · simp [hn]
    · rw [beq_eq_false_iff_ne.mpr hn, Bool.false_or]
  rw [hs, hf, ← Item.retainSpecifiers_bind]
  unfold retainExports removeDefault
  simp only [List.filter_cons, hd, Bool.not_false, if_true, List.filter_nil, retainSpecifiers]
  cases hr : i.retainSpecifiers fun n => decide (n ≠ "default") with
  | none => simp only [List.filterMap_cons, hr]; rfl
  | some j =>
    have hj := Item.retainNames_of_list stays (Item.kind_of_retainSpecifiers hi hr)
    simp only [List.filterMap_cons, hr, List.filterMap_nil, List.flatMap_singleton, hj,
      Option.bind_some]
    cases j.retainSpecifiers fun n => n == "default" || stays n <;> rfl

theorem retainExports_removeDefault (i : Item) :
    retainExports stays (removeDefault [i]) = i.strip stays := by
  by_cases hl : ∃ specifiers source, i.kind = .exportList specifiers source
  · obtain ⟨specifiers, source, hi⟩ := hl
    exact retainExports_removeDefault_list stays hi
  · have hn : ∀ specifiers source, i.kind ≠ .exportList specifiers source :=
      fun a b h => hl ⟨a, b, h⟩
    have hr : i.retainSpecifiers (fun n => decide (n ≠ "default")) = some i :=
      Item.retainSpecifiers_of_not_list hn
    unfold retainExports removeDefault
    by_cases hd : ∃ brace, i.kind = .exportDefault brace
    · obtain ⟨brace, hk⟩ := hd
      simp [Item.isDefault, Item.strip, hk, retainSpecifiers]
    · have hf : i.isDefault = false := by
        unfold Item.isDefault
        split
        · exact absurd ⟨_, ‹_›⟩ hd
        · rfl
      have hs : i.strip stays = i.retainNames stays := by
        unfold Item.strip
        split
        · exact absurd ⟨_, ‹_›⟩ hd
        · exact absurd ‹_› (hn _ _)
        · rfl
      rw [hs, ← Item.filterMap_retainNames stays hn]
      simp only [List.filter_cons, hf, Bool.not_false, if_true, List.filter_nil, retainSpecifiers,
        List.filterMap_cons, hr, List.filterMap_nil, List.flatMap_singleton]

/-- The passes over a module come to one, in which every item goes its own way. -/
theorem stripped_eq (m : EsModule) :
    Synthesis.stripped stays m = m.flatMap (Item.strip stays) := by
  induction m with
  | nil => rfl
  | cons i m ih =>
    rw [List.flatMap_cons, ← ih, ← retainExports_removeDefault stays i]
    unfold Synthesis.stripped removeDefault retainExports retainSpecifiers
    simp only [← List.filterMap_append, ← List.flatMap_append, ← List.filter_append,
      List.singleton_append]

end

namespace Item

def demoted (i : Item) (names : List String) : Item :=
  { i with text := withoutExport i.text, kind := .localDeclaration names }

/-- The items that may remain of one, each with the reason why it does. -/
inductive Remains (stays : String → Bool) (i : Item) : Item → Prop where
  | untouched (h : i.kind ∈ [.importing, .comment, .statement]) : Remains stays i i
  | unexported {names : List String} (h : i.kind = .localDeclaration names) : Remains stays i i
  | star {name : Option String} (h : i.kind = .exportAll name) (hs : stays (name.getD "*") = true) :
      Remains stays i i
  | exported {names : List String} (h : i.kind = .declaration names)
      (hs : ∀ n ∈ names, stays n = true) : Remains stays i i
  | demoted {names : List String} (h : i.kind = .declaration names)
      (hs : ∃ n ∈ names, stays n = true) (hn : ∃ n ∈ names, stays n = false) :
      Remains stays i (i.demoted names)
  | reexported {names : List String} (h : i.kind = .declaration names)
      (hs : ∃ n ∈ names, stays n = true) (hn : ∃ n ∈ names, stays n = false) :
      Remains stays i (i.listOf (names.filter stays))
  | listed {specifiers : List Specifier} {source : Option String}
      (h : i.kind = .exportList specifiers source)
      (hs : ∀ e ∈ specifiers, e.exported ≠ "default" ∧ stays e.exported = true) :
      Remains stays i i
  | narrowed {specifiers : List Specifier} {source : Option String}
      (h : i.kind = .exportList specifiers source)
      (hk : kept (fun n => decide (n ≠ "default") && stays n) specifiers ≠ []) :
      Remains stays i
        (i.rewritten (kept (fun n => decide (n ≠ "default") && stays n) specifiers) source)

section

variable {stays : String → Bool} {i j : Item}

theorem filter_length_eq {names : List String} :
    (names.filter stays).length = names.length ↔ ∀ n ∈ names, stays n = true :=
  ⟨fun h => List.filter_eq_self.mp (List.filter_sublist.eq_of_length h),
    fun h => congrArg List.length (List.filter_eq_self.mpr h)⟩

theorem strip_declaration {names : List String} (h : i.kind = .declaration names) :
    i.strip stays =
      if (names.filter stays).length = names.length then [i]
      else if (names.filter stays).isEmpty then []
      else [i.demoted names, i.listOf (names.filter stays)] := by
  unfold strip retainNames
  rw [h]
  rfl

theorem strip_list {specifiers : List Specifier} {source : Option String}
    (h : i.kind = .exportList specifiers source) :
    i.strip stays =
      (i.retainSpecifiers fun n => decide (n ≠ "default") && stays n).toList := by
  unfold strip
  rw [h]

theorem strip_star {name : Option String} (h : i.kind = .exportAll name) :
    i.strip stays = if stays (name.getD "*") then [i] else [] := by
  unfold strip retainNames
  rw [h]

theorem strip_default {brace : Option Nat} (h : i.kind = .exportDefault brace) :
    i.strip stays = [] := by
  unfold strip
  rw [h]

theorem strip_untouched (h : i.kind ∈ [.importing, .comment, .statement]) :
    i.strip stays = [i] := by
  simp only [List.mem_cons, List.not_mem_nil, or_false] at h
  unfold strip retainNames
  rcases h with h | h | h <;> rw [h]

theorem strip_unexported {names : List String} (h : i.kind = .localDeclaration names) :
    i.strip stays = [i] := by
  unfold strip retainNames
  rw [h]

theorem remains_of_mem_strip (h : j ∈ i.strip stays) : Remains stays i j := by
  by_cases hu : i.kind ∈ [.importing, .comment, .statement]
  · rw [strip_untouched hu, List.mem_singleton] at h
    subst h
    exact .untouched hu
  cases hk : i.kind with
  | importing => simp [hk] at hu
  | comment => simp [hk] at hu
  | statement => simp [hk] at hu
  | localDeclaration names =>
    rw [strip_unexported hk, List.mem_singleton] at h
    subst h
    exact .unexported hk
  | exportDefault brace =>
    rw [strip_default hk] at h
    simp at h
  | exportAll name =>
    rw [strip_star hk] at h
    split at h
    · obtain rfl := List.mem_singleton.mp h
      exact .star hk ‹_›
    · simp at h
  | declaration names =>
    rw [strip_declaration hk] at h
    split at h
    · rename_i hl
      obtain rfl := List.mem_singleton.mp h
      exact .exported hk (filter_length_eq.mp hl)
    split at h
    · simp at h
    rename_i hl he
    have some : ∃ n ∈ names, stays n = true := by simpa using he
    have other : ∃ n ∈ names, stays n = false := by
      rw [filter_length_eq] at hl
      simpa using hl
    rcases List.mem_cons.mp h with rfl | h
    · exact .demoted hk some other
    · obtain rfl := List.mem_singleton.mp h
      exact .reexported hk some other
  | exportList specifiers source =>
    rw [strip_list hk, Option.mem_toList, retainSpecifiers_list hk] at h
    split at h
    · rename_i hl
      obtain rfl := Option.some.inj h
      apply Remains.listed hk
      intro e he
      have hf := List.filter_eq_self.mp (kept_eq_self hl) e he
      simpa using hf
    split at h
    · simp at h
    · rename_i he
      obtain rfl := Option.some.inj h
      exact .narrowed hk (by simpa using he)

end

/-- No declaration is taken apart: all of its names stay, or none. -/
def IsWhole (stays : String → Bool) (i : Item) : Prop :=
  ∀ names, i.kind = .declaration names →
    (∀ n ∈ names, stays n = true) ∨ ∀ n ∈ names, stays n = false

section

variable {stays : String → Bool} {i : Item}

theorem exportedNames_strip_declaration {names : List String} (hk : i.kind = .declaration names)
    (hd : stays "default" = false ∨ i.IsWhole stays) :
    (i.strip stays).flatMap exportedNames = names.filter stays := by
  have he : i.exportedNames = names := by
    unfold exportedNames
    rw [hk]
  rw [strip_declaration hk]
  split
  · rename_i hl
    rw [List.flatMap_singleton, he, List.filter_sublist.eq_of_length hl]
  split
  · rename_i hn
    rw [List.isEmpty_iff.mp hn]
    rfl
  · rename_i hl hn
    have hf : stays "default" = false := by
      apply hd.resolve_right
      intro hw
      rcases hw names hk with h | h
      · exact hl (filter_length_eq.mpr h)
      · exact hn (by simpa using h)
    have hlist : (i.listOf (names.filter stays)).exportedNames = names.filter stays := by
      simp only [exportedNames, listOf, List.map_map, Function.comp_def, List.map_id']
      apply List.filter_eq_self.mpr
      intro n hm
      have hs := (List.mem_filter.mp hm).2
      apply decide_eq_true
      rintro rfl
      simp [hf] at hs
    have hdem : (i.demoted names).exportedNames = [] := rfl
    rw [List.flatMap_cons, List.flatMap_singleton, hlist, hdem, List.nil_append]

theorem exportedNames_strip_list {specifiers : List Specifier} {source : Option String}
    (hk : i.kind = .exportList specifiers source) :
    (i.strip stays).flatMap exportedNames = i.exportedNames.filter stays := by
  rw [strip_list hk]
  cases hr : i.retainSpecifiers fun n => decide (n ≠ "default") && stays n with
  | some j =>
    have hj : j.exportedNames = i.exportedNames.filter stays := by
      simp only [exportedNames, kind_of_retainSpecifiers hk hr, hk, kept, List.filter_filter,
        List.filter_map, Function.comp_def]
      refine congrArg (List.map _) (List.filter_congr fun e _ => ?_)
      by_cases he : e.exported = "default" <;> simp [he]
    exact (List.flatMap_singleton ..).trans hj
  | none =>
    rw [retainSpecifiers_list hk] at hr
    have he : kept (fun n => decide (n ≠ "default") && stays n) specifiers = [] := by
      split at hr
      · simp at hr
      split at hr
      · exact List.isEmpty_iff.mp ‹_›
      · simp at hr
    simp only [Option.toList_none, List.flatMap_nil, exportedNames, hk, List.filter_map,
      List.filter_filter, Function.comp_def]
    rw [eq_comm, List.map_eq_nil_iff, List.filter_eq_nil_iff]
    intro e hm
    have hf := List.filter_eq_nil_iff.mp he e hm
    simpa [and_comm] using hf

/-- Of the names that an item exports, those remain exported that stay. A declaration of the name
`default` must not be taken apart: in a list the name is no longer one of the names exported. -/
theorem exportedNames_strip (hd : stays "default" = false ∨ i.IsWhole stays) :
    (i.strip stays).flatMap exportedNames = i.exportedNames.filter stays := by
  have names_of (h : i.strip stays = [i]) (hs : i.exportedNames.filter stays = i.exportedNames) :
      (i.strip stays).flatMap exportedNames = i.exportedNames.filter stays := by
    rw [h, hs, List.flatMap_singleton]
  cases hk : i.kind with
  | importing => exact names_of (strip_untouched (by simp [hk])) (by simp [exportedNames, hk])
  | comment => exact names_of (strip_untouched (by simp [hk])) (by simp [exportedNames, hk])
  | statement => exact names_of (strip_untouched (by simp [hk])) (by simp [exportedNames, hk])
  | localDeclaration names =>
    exact names_of (strip_unexported hk) (by simp [exportedNames, hk])
  | exportDefault brace => simp [strip_default hk, exportedNames, hk]
  | exportAll name =>
    rw [strip_star hk]
    cases name with
    | none => split <;> simp [exportedNames, hk]
    | some name => by_cases hs : stays name <;> simp [exportedNames, hk, hs]
  | declaration names =>
    rw [exportedNames_strip_declaration hk hd]
    simp [exportedNames, hk]
  | exportList specifiers source => exact exportedNames_strip_list hk

end

end Item

theorem exportedNames_stripped {stays : String → Bool} {m : EsModule}
    (hd : stays "default" = false ∨ ∀ i ∈ m, i.IsWhole stays) :
    (Synthesis.stripped stays m).exportedNames = m.exportedNames.filter stays := by
  rw [stripped_eq]
  unfold exportedNames
  rw [List.flatMap_assoc, List.filter_flatMap]
  refine List.flatMap_congr fun i hi => Item.exportedNames_strip (hd.imp_right fun h => h i hi)

end StyleExports.EsModule
