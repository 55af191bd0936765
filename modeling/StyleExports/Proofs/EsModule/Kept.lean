import StyleExports.Proofs.EsModule.ExportList

namespace StyleExports.EsModule

open Text

section

variable {n : String}

theorem isNameChar_of_isIdentChar {c : Char} (h : isIdentChar c = true) : isNameChar c = true := by
  refine isNameChar_iff.mpr ⟨Scan.isIdle_of_isIdentChar h, ?_, ?_⟩
  · rw [Bool.eq_false_iff]
    intro hb
    simp [Scan.isIdentChar_of_isBlank hb] at h
  · rintro rfl
    exact absurd h (by decide)

theorem isPlainName_of_identifier? {s : List Char} (h : n ∈ (identifier? s).toList) :
    isPlainName n.toList = true := by
  rw [Option.mem_toList] at h
  unfold identifier? at h
  split at h
  · simp at h
  · rename_i w hw
    obtain rfl := Option.some.inj h
    rw [String.toList_ofList]
    refine isPlainName_iff.mpr ⟨hw, fun c hc => isNameChar_of_isIdentChar ?_⟩
    exact List.mem_takeWhile_imp hc

theorem isPlainName_of_targetNames {target : List Char} (h : n ∈ targetNames target) :
    isPlainName n.toList = true := by
  fun_induction targetNames target with
  | case1 target hp => exact isPlainName_of_identifier? h
  | case2 target inner object hp ih =>
    obtain ⟨e, -, he⟩ := List.mem_flatMap.mp h
    exact ih e he

theorem isPlainName_of_declaredNames {s : List Char} (h : n ∈ declaredNames s) :
    isPlainName n.toList = true := by
  unfold declaredNames at h
  simp only at h
  split at h
  · exact isPlainName_of_identifier? h
  split at h
  · exact isPlainName_of_identifier? h
  split at h
  · obtain ⟨d, -, hd⟩ := List.mem_flatMap.mp h
    exact isPlainName_of_targetNames hd
  · simp at h

end

namespace Item

/-- Whether an item is no export list, or a list of plain specifiers that is read in modes with
property `p` only. -/
def isPlainList (p : Mode → Bool) (i : Item) : Bool :=
  match i.kind with
  | .exportList specifiers _ =>
    specifiers.all Specifier.isPlain && Scan.start.staysIn p i.text
  | _ => true

section

variable {i j : Item} {specifiers chosen : List Specifier}

theorem stable_rewritten {source : Option String} (hn : chosen ≠ [])
    (hp : ∀ e ∈ chosen, e.isPlain = true)
    (hc : Scan.start.closes (listBody chosen ++ listTail source) = true)
    (hs : Kind.source? (listTail source) = source) : (i.rewritten chosen source).Stable := by
  have text : (i.rewritten chosen source).text = listBody chosen ++ listTail source :=
    listText_toList chosen source
  have head : (listBody chosen ++ listTail source).head? = some 'e' := by
    unfold listBody
    rfl
  refine ⟨?_, fun _ => ?_⟩
  · rw [text]
    exact isLine_of_closes head (by decide) (by decide) (by decide) hc
  · rw [text, Kind.ofStatement_listBody 0 hn hp, hs]
    rfl

theorem stable_rewritten_none (hn : chosen ≠ []) (hp : ∀ e ∈ chosen, e.isPlain = true) :
    (i.rewritten chosen none).Stable := by
  refine stable_rewritten hn hp (Scan.closes_of_takes ?_) rfl
  exact (takes_listBody hp).imp (fun _ h => h) fun _ h => h.settled

theorem stable_rewritten_some {source : String} (hi : i.Stable) (ht : i.isTerminated = true)
    (hk : i.kind = .exportList specifiers (some source))
    (hl : i.isPlainList Scan.isQuiet = true) (hn : chosen ≠ []) (hs : chosen ⊆ specifiers) :
    (i.rewritten chosen (some source)).Stable := by
  simp only [isPlainList, hk, Bool.and_eq_true, List.all_eq_true] at hl
  have hcl : Scan.start.closes i.text = true := by simpa [isTerminated, hk] using ht
  have hkind : Kind.ofStatement 0 i.text = .exportList specifiers (some source) :=
    Kind.eq_exportList_of_seen (by rw [hi.kind (by simp [hk]), hk]; rfl)
  have plain : ∀ e ∈ chosen, e.isPlain = true := fun e he => hl.1 e (hs he)
  obtain ⟨hc, tight, hlast⟩ := closes_source hkind hcl hl.2 hl.1 plain
  apply stable_rewritten hn plain hc
  rw [listTail_some, Kind.source?_of_tail tight hlast, String.ofList_toList]

theorem stable_of_mem_strip {stays : String → Bool} (hi : i.Stable) (ht : i.isTerminated = true)
    (hl : i.isPlainList Scan.isQuiet = true) (hj : j ∈ i.strip stays) : j.Stable := by
  cases remains_of_mem_strip hj with
  | untouched => exact hi
  | unexported => exact hi
  | star => exact hi
  | exported => exact hi
  | listed => exact hi
  | demoted hk hs =>
    obtain ⟨n, hn, -⟩ := hs
    exact stable_demoted hi ht hk (List.ne_nil_of_mem hn)
  | @reexported names hk hs =>
    obtain ⟨n, hn, hstay⟩ := hs
    have some : (names.filter stays).map (fun n => (⟨n, n⟩ : Specifier)) ≠ [] := by
      simpa using ⟨n, hn, hstay⟩
    apply stable_rewritten_none some
    intro e he
    obtain ⟨m, hm, rfl⟩ := List.mem_map.mp he
    obtain ⟨r, -, hd⟩ := Kind.ofStatement_eq_declaration (kind_of_stable hi hk)
    have hp := isPlainName_of_declaredNames (hd ▸ (List.mem_filter.mp hm).1)
    exact Bool.and_eq_true_iff.mpr ⟨hp, hp⟩
  | @narrowed specifiers source hk hkept =>
    have sub : kept (fun n => decide (n ≠ "default") && stays n) specifiers ⊆ specifiers :=
      List.filter_sublist.subset
    cases source with
    | some source => exact stable_rewritten_some hi ht hk hl hkept sub
    | none =>
      simp only [isPlainList, hk, Bool.and_eq_true, List.all_eq_true] at hl
      exact stable_rewritten_none hkept fun e he => hl.1 e (sub he)

end

/-- Whether an item is written anew only as it can be read back. -/
def IsReprintable (stays : String → Bool) (i : Item) : Prop :=
  i.isPlainList Scan.isQuiet = true ∨ i.strip stays ⊆ [i]

end Item

/-- What remains of a module that semicolons terminate is read back. -/
theorem stable_of_mem_stripped {stays : String → Bool} {s : List Char} {m : EsModule}
    (h : ofText? s = .ok m) (ht : ∀ i ∈ m, i.isTerminated = true)
    (hl : ∀ i ∈ m, i.IsReprintable stays) {j : Item}
    (hj : j ∈ Synthesis.stripped stays m) : j.Stable := by
  rw [stripped_eq] at hj
  obtain ⟨i, hi, hj⟩ := List.mem_flatMap.mp hj
  have hs := stable_of_ofText? h hi (ht i hi)
  rcases hl i hi with hp | hself
  · exact Item.stable_of_mem_strip hs (ht i hi) hp hj
  · obtain rfl := List.mem_singleton.mp (hself hj)
    exact hs

end StyleExports.EsModule
