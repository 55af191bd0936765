import StyleExports.Disk.Basic
import StyleExports.Proofs.Disk.Components

namespace StyleExports.Disk

open Text

def Component.lead (a : Place) : Component → Place
  | .root => []
  | .here => a
  | .up => a.dropLast
  | .name s => a ++ [s]

def leadAll (a : Place) (cs : List Component) : Place := cs.foldl Component.lead a

theorem leadAll_append (a : Place) (cs ds : List Component) :
    leadAll a (cs ++ ds) = leadAll (leadAll a cs) ds := List.foldl_append

theorem leadAll_names (a : Place) (ns : List (List Char)) :
    leadAll a (ns.map .name) = a ++ ns := by
  induction ns generalizing a with
  | nil => simp [leadAll]
  | cons n ns ih =>
    rw [List.map_cons, leadAll, List.foldl_cons, ← leadAll, ih, Component.lead,
      List.append_assoc, List.singleton_append]

def landing (d : Disk) (p : Path) : Place := leadAll d.here p.components

theorem landing_congr {d e : Disk} (h : e.here = d.here) (p : Path) : e.landing p = d.landing p := by
  rw [landing, landing, h]

theorem Path.isAbsolute_iff {p : Path} {s : List Char} {ps : List (List Char)}
    (hp : p.parts = s :: ps) (hc : p.chars ≠ []) : p.isAbsolute = true ↔ s = [] := by
  obtain ⟨c, cs, h⟩ := List.exists_cons_of_ne_nil hc
  rw [parts, h, split] at hp
  rw [isAbsolute, h, List.head?_cons, beq_iff_eq, Option.some.injEq]
  by_cases hs : c = '/'
  · have := (List.cons.inj (by simpa [hs] using hp)).1
    simp [hs, this.symm]
  · rw [if_neg (by simpa using hs)] at hp
    obtain ⟨w, ws, hw⟩ := List.exists_cons_of_ne_nil (split_ne_nil (· == '/') cs)
    rw [hw] at hp
    simp only [List.cons.injEq] at hp
    simp [hs, ← hp.1]

theorem Path.isAbsolute_iff_head {p : Path} :
    p.isAbsolute = true ↔ p.components.head? = some .root := by
  obtain ⟨s, ps, hp⟩ := List.exists_cons_of_ne_nil p.parts_ne_nil
  by_cases hc : p.chars = []
  · simp [components_eq_nil.mpr hc, isAbsolute, hc]
  rw [isAbsolute_iff hp hc, components_of_parts hp]
  by_cases hs : s = []
  · cases ps with
    | nil => exact absurd (chars_eq_nil (hs ▸ hp)) hc
    | cons t ts => simp [hs, firstComponent?]
  · have other : firstComponent? s (!ps.isEmpty) ≠ some .root := by
      unfold firstComponent?
      rw [if_neg hs]
      split
      · simp
      · exact component?_ne.1
    cases hf : firstComponent? s (!ps.isEmpty) with
    | none => exact absurd (firstComponent?_eq_none hf).1 hs
    | some c =>
      rw [hf] at other
      simpa [hs] using other

/-- The parts of a path lead from where it starts to where its components lead. -/
theorem leadAll_startOf (d : Disk) {p : Path} (hc : p.chars ≠ []) :
    leadAll (d.startOf p) (p.parts.filterMap Path.component?) = d.landing p := by
  obtain ⟨s, ps, hp⟩ := List.exists_cons_of_ne_nil p.parts_ne_nil
  have absolute := Path.isAbsolute_iff hp hc
  rw [landing, Path.components_of_parts hp, hp, startOf]
  by_cases hn : s = []
  · have more : (!ps.isEmpty) = true := by
      cases ps with
      | nil => exact absurd (Path.chars_eq_nil (hn ▸ hp)) hc
      | cons => rfl
    rw [if_pos (absolute.mpr hn), more, hn]
    rfl
  · rw [if_neg (by simpa using fun h => hn (absolute.mp h)), Path.firstComponent?, if_neg hn]
    by_cases hd : s = ['.']
    · rw [if_pos hd, hd]
      rfl
    · rw [if_neg hd, List.filterMap_cons]
      cases Path.component? s <;> rfl

theorem bind_eq_ok {α β : Type} {x : Except Fault α} {f : α → Except Fault β} {b : β}
    (h : x >>= f = .ok b) : ∃ a, x = .ok a ∧ f a = .ok b := by
  cases x with
  | ok a => exact ⟨a, rfl, h⟩
  | error e => cases h

theorem follow_eq {d : Disk} {a b : Place} {s : List Char} (h : d.follow a s = .ok b) :
    b = leadAll a (Path.component? s).toList := by
  unfold follow at h
  unfold Path.component?
  split at h
  · simp at h
  split at h
  · rename_i ht
    rw [if_pos ht, ← Except.ok.inj h]
    rfl
  rename_i ht
  rw [if_neg ht]
  split at h
  · rename_i hu
    rw [if_pos hu, ← Except.ok.inj h]
    rfl
  rename_i hu
  rw [if_neg hu]
  split at h
  · simp at h
  split at h
  · rw [← Except.ok.inj h]
    rfl
  · simp at h

theorem followAll_eq {d : Disk} {a b : Place} {ps : List (List Char)}
    (h : d.followAll a ps = .ok b) : b = leadAll a (ps.filterMap Path.component?) := by
  induction ps generalizing a with
  | nil => exact (Except.ok.inj h).symm
  | cons s ps ih =>
    rw [followAll, List.foldlM_cons] at h
    obtain ⟨c, hc, h⟩ := bind_eq_ok h
    rw [ih h, follow_eq hc, List.filterMap_cons]
    cases Path.component? s <;> rfl

theorem ask_eq_ok_iff {p : Path} : ask p = .ok () ↔
    p.chars ≠ [] ∧ '\x00' ∉ p.chars ∧ size p.chars < pathBound := by
  unfold ask
  split
  · rename_i none'
    simp [none']
  split
  · rename_i nul
    simp [List.contains_iff_mem.mp nul]
  · rename_i some' nul
    simp only [List.contains_iff_mem] at nul
    split
    · rename_i long
      simp [Nat.not_lt_of_le long]
    · rename_i short
      simp [some', nul, Nat.lt_of_not_le short]

theorem ask_eq_ok {p : Path} {u : Unit} (h : ask p = .ok u) : p.chars ≠ [] := by
  intro hn
  simp [ask, hn] at h

theorem place?_eq {d : Disk} {p : Path} {a : Place} (h : d.place? p = .ok a) : a = d.landing p := by
  obtain ⟨u, hu, h⟩ := bind_eq_ok h
  rw [followAll_eq h, leadAll_startOf d (ask_eq_ok hu)]

theorem read_eq_ok {d : Disk} {p : Path} {s : String} (h : d.read p = .ok s) :
    d.entryAt? (d.landing p) = some (.file s) := by
  obtain ⟨a, ha, h⟩ := bind_eq_ok h
  obtain rfl := place?_eq ha
  split at h <;> simp_all [pure, Except.pure]

theorem component?_of_named {s : List Char} (h : isNameless s = false) :
    Path.component? s = some (.name s) := by
  simp only [isNameless, Bool.or_eq_false_iff, beq_eq_false_iff_ne] at h
  rw [Path.component?, h.1, if_neg (by simp), if_neg h.2]

theorem isName_of_last {p : Path} {n : List Char} (last : p.parts.getLast? = some n)
    (named : isNameless n = false) : IsName n := by
  simp only [isNameless, Bool.or_eq_false_iff, beq_eq_false_iff_ne] at named
  exact ⟨named.1, named.2, Path.slash_not_mem (List.mem_of_getLast? last)⟩

theorem write_eq_ok {d e : Disk} {p : Path} {s : String} (h : d.write p s = .ok e) : ∃ a n,
    ask p = .ok () ∧ d.followAll (d.startOf p) p.parts.dropLast = .ok a ∧ d.isDirectoryAt a = true ∧
      p.parts.getLast? = some n ∧ isNameless n = false ∧ size n ≤ nameBound ∧
      d.isDirectoryAt (a ++ [n]) = false ∧ d.landing p = a ++ [n] ∧
      e = d.put (a ++ [n]) (.file s) := by
  obtain ⟨⟨a, n⟩, found, h⟩ := bind_eq_ok h
  obtain ⟨u, asked, found⟩ := bind_eq_ok found
  obtain ⟨b, followed, found⟩ := bind_eq_ok found
  split at found
  · cases found
  rename_i directory
  obtain ⟨rfl, last⟩ := Prod.mk.inj (Except.ok.inj found)
  dsimp only at h
  split at h
  · cases h
  split at h
  · cases h
  split at h
  · cases h
  rename_i named short free
  have named : isNameless n = false := by simpa using named
  have last : p.parts.getLast? = some n := by
    rw [← last, List.getLast?_eq_some_getLast p.parts_ne_nil, Option.getD_some]
  have lands : d.landing p = b ++ [n] := by
    obtain ⟨ps, parts⟩ := List.getLast?_eq_some_iff.mp last
    rw [parts, List.dropLast_concat] at followed
    rw [← leadAll_startOf d (ask_eq_ok asked), parts, List.filterMap_append, leadAll_append,
      ← followAll_eq followed, List.filterMap_cons, component?_of_named named]
    rfl
  exact ⟨b, n, asked, followed, by simpa using directory, last, named, Nat.le_of_not_lt short,
    by simpa using free, lands, (Except.ok.inj h).symm⟩

theorem write_of_newPlace {d : Disk} {p : Path} {a : Place} {n : List Char} (s : String)
    (h : d.newPlace p p.parts = .ok (a, n)) (named : isNameless n = false)
    (short : size n ≤ nameBound) (free : d.isDirectoryAt (a ++ [n]) = false) :
    d.write p s = .ok (d.put (a ++ [n]) (.file s)) := by
  simp only [write, h, bind, Except.bind, named, free, Nat.not_lt_of_le short, Bool.false_eq_true,
    if_false]
  rfl

/-- Writing a file puts it where the path leads and no directory is. -/
theorem write_eq {d e : Disk} {p : Path} {s : String} (h : d.write p s = .ok e) :
    d.landing p ≠ [] ∧ d.isDirectoryAt (d.landing p) = false ∧
      e = d.put (d.landing p) (.file s) := by
  obtain ⟨a, n, -, -, -, -, -, -, free, lands, rfl⟩ := write_eq_ok h
  rw [lands]
  exact ⟨by simp, free, rfl⟩

/-- Making a directory puts one where nothing was. -/
theorem makeDirectory_eq {d e : Disk} {p : Path} (h : d.makeDirectory p = .ok e) :
    ∃ a, a ≠ [] ∧ d.entryAt? a = none ∧ e = d.put a .directory := by
  obtain ⟨⟨a, name⟩, -, h⟩ := bind_eq_ok h
  dsimp only at h
  split at h
  · simp at h
  split at h
  · simp at h
  split at h
  · simp at h
  rename_i free
  exact ⟨a ++ [name], by simp, by simpa using free, (Except.ok.inj h).symm⟩

/-- A relation between file systems that is handed on from step to step. -/
structure Lasting (R : Disk → Disk → Prop) : Prop where
  refl : ∀ d, R d d
  trans : ∀ {d e f}, R d e → R e f → R d f

namespace Lasting

variable {R : Disk → Disk → Prop} (hR : Lasting R)

include hR

theorem attempt {d : Disk} {r : Except Fault Disk} (h : ∀ e, r = .ok e → R d e) :
    R d (d.attempt r).2 := by
  cases r with
  | ok e => exact h e rfl
  | error fault => exact hR.refl d

variable (make : ∀ d e p, makeDirectory d p = .ok e → R d e)

include make

theorem ensureDirectory {d e : Disk} {p : Path} (h : d.ensureDirectory p = .ok e) : R d e := by
  unfold Disk.ensureDirectory at h
  split at h
  · rename_i made
    exact make _ _ _ (Except.ok.inj h ▸ made)
  · split at h
    · rw [← Except.ok.inj h]
      exact hR.refl d
    · simp at h

theorem ensureAbove (n : Nat) (d : Disk) (p : Path) : R d (Disk.ensureAbove n d p).2 := by
  have once (d : Disk) (p : Path) : R d (d.attempt (d.ensureDirectory p)).2 :=
    hR.attempt fun _ => hR.ensureDirectory make
  induction n generalizing d p with
  | zero => exact once d p
  | succ n ih =>
    unfold Disk.ensureAbove
    split
    · exact hR.refl d
    split
    · rename_i q _ _
      have above := ih d q
      split
      · rename_i e he
        rw [he] at above
        exact hR.trans above (once e p)
      · exact above
    · exact once d p

/-- What making a directory keeps is kept where directories above it are made too. -/
theorem ensureDirectories (d : Disk) (p : Path) : R d (d.ensureDirectories p).2 :=
  hR.ensureAbove make _ d p

end Lasting

/-- Besides the places with a property, nothing has changed but that directories came into being
where nothing was. -/
structure ChangesAt (P : Place → Prop) (d e : Disk) : Prop where
  here : e.here = d.here
  others : ∀ a, ¬P a → e.entryAt? a = d.entryAt? a ∨
    d.entryAt? a = none ∧ e.entryAt? a = some .directory

namespace ChangesAt

variable {P Q : Place → Prop} {d e f : Disk}

theorem refl (P : Place → Prop) (d : Disk) : ChangesAt P d d := ⟨rfl, fun _ _ => .inl rfl⟩

theorem mono (h : ChangesAt P d e) (hPQ : ∀ a, P a → Q a) : ChangesAt Q d e :=
  ⟨h.here, fun a ha => h.others a fun hp => ha (hPQ a hp)⟩

theorem trans (h : ChangesAt P d e) (h' : ChangesAt P e f) : ChangesAt P d f := by
  refine ⟨h'.here.trans h.here, fun a ha => ?_⟩
  rcases h.others a ha, h'.others a ha with ⟨same | ⟨was, now⟩, same' | ⟨was', now'⟩⟩
  · exact .inl (same'.trans same)
  · exact .inr ⟨same ▸ was', now'⟩
  · exact .inr ⟨was, same'.trans now⟩
  · rw [now] at was'
    cases was'

theorem file (h : ChangesAt P d e) {a : Place} (ha : ¬P a) {s : String}
    (hs : d.entryAt? a = some (.file s)) : e.entryAt? a = some (.file s) := by
  rcases h.others a ha with same | ⟨was, -⟩
  · rw [same, hs]
  · rw [was] at hs
    cases hs

theorem file_before (h : ChangesAt P d e) {a : Place} (ha : ¬P a) {s : String}
    (hs : e.entryAt? a = some (.file s)) : d.entryAt? a = some (.file s) := by
  rcases h.others a ha with same | ⟨-, now⟩
  · rw [← same, hs]
  · rw [now] at hs
    cases hs

end ChangesAt

theorem lasting_changesAt (P : Place → Prop) : Lasting (ChangesAt P) := ⟨.refl P, .trans⟩

section

variable {d e : Disk} {p : Path}

theorem changesAt_put {a : Place} (ha : a ≠ []) (x : Entry) : ChangesAt (· = a) d (d.put a x) := by
  refine ⟨rfl, fun b hb => .inl ?_⟩
  rw [entryAt?_put d x b ha, if_neg hb]

theorem changesAt_write {s : String} (h : d.write p s = .ok e) :
    ChangesAt (· = d.landing p) d e ∧ e.entryAt? (d.landing p) = some (.file s) := by
  obtain ⟨proper, -, rfl⟩ := write_eq h
  exact ⟨changesAt_put proper _, by rw [entryAt?_put d _ _ proper, if_pos rfl]⟩

theorem changesAt_makeDirectory (h : d.makeDirectory p = .ok e) : ChangesAt (fun _ => False) d e := by
  obtain ⟨a, proper, free, rfl⟩ := makeDirectory_eq h
  refine ⟨rfl, fun b _ => ?_⟩
  rw [entryAt?_put d _ b proper]
  by_cases hb : b = a
  · exact .inr ⟨hb ▸ free, if_pos hb⟩
  · exact .inl (if_neg hb)

theorem changesAt_attempt (P : Place → Prop) {r : Except Fault Disk}
    (h : ∀ e, r = .ok e → ChangesAt P d e) : ChangesAt P d (d.attempt r).2 :=
  (lasting_changesAt P).attempt h

/-- Making directories changes no file. -/
theorem changesAt_ensureDirectories (d : Disk) (p : Path) :
    ChangesAt (fun _ => False) d (d.ensureDirectories p).2 :=
  (lasting_changesAt _).ensureDirectories (fun _ _ _ => changesAt_makeDirectory) d p

end

end StyleExports.Disk
