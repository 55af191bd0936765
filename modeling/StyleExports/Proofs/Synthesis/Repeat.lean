import StyleExports.Proofs.Synthesis.Reading

namespace StyleExports

open EsModule

namespace EsModule.Item

section

variable {stays : String → Bool} {i j k : Item}

theorem strip_of_seen (h : k.kind.seen ∈ [.importing, .comment, .statement]) :
    k.strip stays = [k] := by
  cases hk : k.kind with
  | importing => exact strip_untouched (by simp [hk])
  | comment => exact strip_untouched (by simp [hk])
  | statement => exact strip_untouched (by simp [hk])
  | localDeclaration names => exact strip_unexported hk
  | _ => simp [hk, Kind.seen] at h

theorem strip_list_of_stays {specifiers : List Specifier} {source : Option String}
    (hk : k.kind = .exportList specifiers source)
    (hs : ∀ e ∈ specifiers, e.exported ≠ "default" ∧ stays e.exported = true) :
    k.strip stays = [k] := by
  have all : kept (fun n => decide (n ≠ "default") && stays n) specifiers = specifiers :=
    List.filter_eq_self.mpr fun e he => by simp [hs e he]
  rw [strip_list hk, retainSpecifiers_list hk, if_pos (congrArg List.length all)]
  rfl

/-- What remains of an item, and is read again, remains as it is. -/
theorem strip_of_remains (hd : stays "default" = false ∨ i.IsWhole stays)
    (h : i.Remains stays j) (hv : k.view = j.view) : k.strip stays = [k] := by
  have seen : k.kind.seen = j.kind.seen := congrArg Prod.fst hv
  cases h with
  | untouched hu =>
    apply strip_of_seen
    rw [seen]
    simp only [List.mem_cons, List.not_mem_nil, or_false] at hu
    rcases hu with hu | hu | hu <;> simp [hu, Kind.seen]
  | unexported hu =>
    apply strip_of_seen
    rw [seen, hu]
    simp [Kind.seen]
  | demoted =>
    apply strip_of_seen
    rw [seen]
    simp [Item.demoted, Kind.seen]
  | star hk hs =>
    have hkind := Kind.eq_exportAll_of_seen (seen.trans (congrArg Kind.seen hk))
    rw [strip_star hkind, if_pos hs]
  | exported hk hs =>
    have hkind := Kind.eq_declaration_of_seen (seen.trans (congrArg Kind.seen hk))
    rw [strip_declaration hkind, if_pos (filter_length_eq.mpr hs)]
  | @reexported names hk hs hn =>
    refine strip_list_of_stays (Kind.eq_exportList_of_seen seen) fun e he => ?_
    obtain ⟨n, hm, rfl⟩ := List.mem_map.mp he
    have hstays := (List.mem_filter.mp hm).2
    refine ⟨fun he => ?_, hstays⟩
    change n = "default" at he
    subst he
    -- A name that stays beside one that does not: the declaration is taken apart.
    rcases hd with hf | hw
    · simp [hf] at hstays
    · obtain ⟨b, hb, hbf⟩ := hn
      rcases hw names hk with hall | hnone
      · simp [hall b hb] at hbf
      · simp [hnone "default" (List.mem_filter.mp hm).1] at hstays
  | listed hk hs =>
    exact strip_list_of_stays (Kind.eq_exportList_of_seen (seen.trans (congrArg Kind.seen hk))) hs
  | narrowed =>
    refine strip_list_of_stays (Kind.eq_exportList_of_seen seen) fun e he => ?_
    simpa using (List.mem_filter.mp he).2

end

end EsModule.Item

namespace Synthesis

section

variable {p : Policy} {t : Tree} {m : EsModule}

/-- The lines of the tree give way to the tree. -/
theorem strip_of_line (hp : p ≠ .merge) {i k : Item} (hi : i ∈ Fragment.items t)
    (hv : k.view = i.view) : k.strip (stays p t) = [] := by
  have seen : k.kind.seen = i.kind.seen := congrArg Prod.fst hv
  rcases List.mem_append.mp hi with hi | hi
  · obtain ⟨e, he, rfl⟩ := List.mem_map.mp hi
    obtain ⟨he, hvalid⟩ := List.mem_filter.mp he
    have hm : e.1 ∈ Fragment.names t := List.mem_filter.mpr ⟨List.mem_map_of_mem he, hvalid⟩
    have hkind : k.kind = .declaration [e.1] := Kind.eq_declaration_of_seen seen
    simp [Item.strip_declaration hkind, not_stays_of_mem hp hm]
  · obtain rfl := List.mem_singleton.mp hi
    cases hkind : k.kind with
    | exportDefault brace => exact Item.strip_default hkind
    | _ => simp [hkind, Kind.seen] at seen

/-- Of what is printed and read again, the second synthesis keeps what the first has kept. -/
theorem exists_stripped_reread {s : List Char} (hp : p ≠ .merge) (hd : ofText? s = .ok m)
    (hc : clash? p t m = none) (hs : ∀ j ∈ output p t m, j.Stable) :
    ∃ r, stripped (stays p t) (reread (output p t m)) = r ∧ r ⊆ reread (output p t m) ∧
      r.map (·.text) = (stripped (stays p t) m).map (·.text) := by
  have lines : ∀ i ∈ Fragment.items t, i.Stable := fun i hi => Fragment.stable_of_mem_items hi
  have views := view_reread hs
  rw [output, List.map_append, view_reread lines] at views
  obtain ⟨a, b, hab, ha, hb⟩ := List.map_eq_append_iff.mp views
  have kept : ∀ k ∈ a, k.strip (stays p t) = [k] := by
    intro k hk
    obtain ⟨j, hj, hv⟩ := List.mem_map.mp (ha ▸ List.mem_map_of_mem (f := Item.view) hk)
    rw [stripped_eq] at hj
    obtain ⟨i, hi, hj⟩ := List.mem_flatMap.mp hj
    have whole := (default_or_isWhole hp hd hc).imp_right fun h => h i hi
    exact Item.strip_of_remains whole (Item.remains_of_mem_strip hj) hv.symm
  have gone : ∀ k ∈ b, k.strip (stays p t) = [] := by
    intro k hk
    obtain ⟨i, hi, hv⟩ := List.mem_map.mp (hb ▸ List.mem_map_of_mem (f := Item.view) hk)
    exact strip_of_line hp hi hv.symm
  refine ⟨a, ?_, ?_, ?_⟩
  · rw [output, hab, stripped_eq, List.flatMap_append, List.flatMap_eq_nil_iff.mpr gone,
      List.append_nil, List.flatMap_congr kept, List.flatMap_singleton']
  · rw [output, hab]
    exact List.subset_append_left a b
  · have texts := congrArg (List.map Prod.snd) ha
    rwa [List.map_map, List.map_map] at texts

theorem synthesize_toText {s : List Char} (inline : Bool) (name : String) (hp : p ≠ .merge)
    (hd : ofText? s = .ok m) (hc : clash? p t m = none) (hs : ∀ j ∈ output p t m, j.Stable) :
    synthesize t (String.ofList (toText (output p t m))) p inline name =
      .ok (String.ofList (toText (output p t m))) := by
  have hr : ofText? (String.ofList (toText (output p t m))).toList = .ok (reread (output p t m)) := by
    rw [String.toList_ofList]
    exact ofText?_toText hs
  obtain ⟨r, hstrip, hsub, htexts⟩ := exists_stripped_reread hp hd hc hs
  have hclash : clash? p t (reread (output p t m)) = none := by
    rw [clash?_eq_none, hstrip]
    intro n hn
    obtain ⟨j, hj, hnj⟩ := List.mem_flatMap.mp hn
    unfold Item.localNames at hnj
    split at hnj
    · exact absurd ‹_› (ne_localDeclaration_of_ofText? hr (hsub hj) _)
    · simp at hnj
  have same : toText (output p t (reread (output p t m))) = toText (output p t m) := by
    unfold output at hstrip ⊢
    rw [hstrip, toText_eq_flatMap, toText_eq_flatMap, List.flatMap_append, List.flatMap_append]
    have go (l : EsModule) : (l.flatMap fun i => i.text ++ ['\n']) =
        (l.map (·.text)).flatMap (· ++ ['\n']) := by rw [List.flatMap_map]
    rw [go r, go (stripped _ m), htexts]
  rw [synthesize_eq hp hr, hclash, same]

end

/-- What is synthesised from a module with terminated statements, of which only plain lists are
written anew, is synthesised from itself again. -/
theorem resynthesize {t : Tree} {p : Policy} {d code name name' : String} {inline inline' : Bool}
    {m : EsModule} (hp : p ≠ .merge) (hd : ofText? d.toList = .ok m)
    (ht : ∀ i ∈ m, i.isTerminated = true) (hl : ∀ i ∈ m, i.IsReprintable (stays p t))
    (h : synthesize t d p inline name = .ok code) :
    synthesize t code p inline' name' = .ok code := by
  obtain ⟨hc, hcode⟩ := synthesize_eq_ok hp hd h
  have again := synthesize_toText inline' name' hp hd hc
    (stable_of_mem_output hd ht hl)
  rwa [← hcode, String.ofList_toList] at again

theorem resynthesize_override : ∃ d code m, ofText? d.toList = .ok m ∧
    synthesize (.leaf "c" "1" .empty) d .override false "sharedData" = .ok code ∧
    synthesize (.leaf "c" "1" .empty) code .override true "other" = .ok code ∧ d ≠ code := by
  let d := "export const __vite__a = 1, b = 2;\nexport \x7b k as __vite__k, b as c \x7d;"
  let code := "const __vite__a = 1, b = 2;\nexport \x7b __vite__a \x7d;\n" ++
    "export \x7b k as __vite__k \x7d;\nexport const c = \"1\";\nexport default \x7b\n\tc\n\x7d;\n"
  let m : EsModule := [⟨"export const __vite__a = 1, b = 2;".toList, 0, 34,
      .declaration ["__vite__a", "b"]⟩,
    ⟨"export \x7b k as __vite__k, b as c \x7d;".toList, 35, 69,
      .exportList [⟨"k", "__vite__k"⟩, ⟨"b", "c"⟩] none⟩]
  have hd : ofText? d.toList = .ok m := by decide +kernel
  have h : synthesize (.leaf "c" "1" .empty) d .override false "sharedData" = .ok code := by
    decide +kernel
  have hl : ∀ i ∈ m, i.isPlainList Scan.isQuiet = true := by decide +kernel
  refine ⟨d, code, m, hd, h, ?_, by decide +kernel⟩
  exact resynthesize (by decide) hd (by decide +kernel) (fun i hi => .inl (hl i hi)) h

/-- A list written anew before a regular expression is not read again at all. -/
theorem not_resynthesize_uncommented : ¬∀ (t : Tree) (p : Policy) (d code name : String)
    (inline : Bool) (m : EsModule), p ≠ .merge → ofText? d.toList = .ok m →
    (∀ i ∈ m, i.isTerminated = true) → (∀ i ∈ m, i.isPlainList isUncommented = true) →
    synthesize t d p inline name = .ok code → synthesize t code p inline name = .ok code := by
  intro h
  have again := h (.leaf "b" "1" .empty) .plain "export \x7b a, b \x7d from\u00a0/;/;"
    "export \x7b a \x7d from /;/;\nexport const b = \"1\";\nexport default \x7b\n\tb\n\x7d;\n"
    "sharedData" false
    [⟨"export \x7b a, b \x7d from\u00a0/;/;".toList, 0, 26,
      .exportList [⟨"a", "a"⟩, ⟨"b", "b"⟩] (some "/;/")⟩]
    (by decide) (by decide +kernel) (by decide +kernel) (by decide +kernel) (by decide +kernel)
  revert again
  decide +kernel

end Synthesis

end StyleExports
