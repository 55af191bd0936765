import StyleExports.EsModule.Basic
import StyleExports.Proofs.EsModule.Line

namespace StyleExports.EsModule

open Text

/-- A kind as a reader of the text sees it, the place of a brace left out. -/
def Kind.seen : Kind → Kind
  | .localDeclaration _ => .statement
  | .exportDefault brace => .exportDefault (brace.map fun _ => 0)
  | k => k

theorem Kind.seen_ofStatement (n m : Nat) (s : List Char) :
    (ofStatement n s).seen = (ofStatement m s).seen := by
  unfold ofStatement
  cases afterKeyword? "import".toList s with
  | some rest => rfl
  | none =>
    cases afterKeyword? "export".toList s with
    | none => rfl
    | some rest =>
      simp only [ofExport]
      cases afterKeyword? "default".toList (trimStart rest) with
      | none => rfl
      | some u =>
        simp only
        split <;> rfl

theorem Kind.ofStatement_ne_comment (n : Nat) (s : List Char) : ofStatement n s ≠ .comment := by
  unfold ofStatement ofExport ofList
  repeat' split
  all_goals simp

namespace Item

/-- What of an item does not depend on its place. -/
def view (i : Item) : Kind × List Char := (i.kind.seen, i.text)

/-- Whether a semicolon terminates an item; a comment needs none. -/
def isTerminated (i : Item) : Bool := i.kind == .comment || Scan.start.closes i.text

/-- An item whose text on lines of its own is read as that item again. -/
structure Stable (i : Item) : Prop where
  line : IsLine i.text (i.kind == .comment)
  kind : i.kind ≠ .comment → (Kind.ofStatement 0 i.text).seen = i.kind.seen

theorem exportedNames_of_seen (i : Item) :
    i.exportedNames = (⟨[], 0, 0, i.kind.seen⟩ : Item).exportedNames := by
  unfold exportedNames
  cases i.kind <;> rfl

theorem exportedNames_congr {i j : Item} (h : i.kind.seen = j.kind.seen) :
    i.exportedNames = j.exportedNames := by
  rw [exportedNames_of_seen i, exportedNames_of_seen j, h]

end Item

theorem toText_eq_flatMap (m : EsModule) : toText m = m.flatMap fun i => i.text ++ ['\n'] := by
  have lines (i : Item) (m : EsModule) :
      join ['\n'] ((i :: m).map (·.text)) ++ ['\n'] = (i :: m).flatMap fun i => i.text ++ ['\n'] := by
    induction m generalizing i with
    | nil => rw [List.flatMap_singleton]; rfl
    | cons j m ih =>
      rw [List.flatMap_cons, ← ih j, List.map_cons, List.map_cons, join]
      simp only [List.append_assoc]
  cases m with
  | nil => rfl
  | cons i m => exact lines i m

theorem toText_cons (i : Item) (m : EsModule) : toText (i :: m) = i.text ++ '\n' :: toText m := by
  rw [toText_eq_flatMap, toText_eq_flatMap, List.flatMap_cons, List.append_assoc]
  rfl

theorem toText_congr {m r : EsModule} (h : m.map Item.text = r.map Item.text) :
    toText m = toText r := by
  have lines (m : EsModule) : toText m = (m.map Item.text).flatMap (· ++ ['\n']) := by
    rw [toText_eq_flatMap, List.flatMap_map]
  rw [lines, lines, h]

/-- The module that is read from the lines of a module. -/
def reread (m : EsModule) : EsModule :=
  (chunksOfLines 0 (m.map fun i => (i.text, i.kind == .comment))).map Item.ofChunk

theorem ofText?_toText {m : EsModule} (h : ∀ i ∈ m, i.Stable) :
    ofText? (toText m) = .ok (reread m) := by
  have hl : ∀ l ∈ m.map fun i => (i.text, i.kind == .comment), IsLine l.1 l.2 := by
    intro l hl
    obtain ⟨i, hi, rfl⟩ := List.mem_map.mp hl
    exact (h i hi).line
  have hc := chunks_lines hl 0
  rw [List.flatMap_map] at hc
  rw [ofText?, toText_eq_flatMap, hc]
  rfl

theorem view_reread {m : EsModule} (h : ∀ i ∈ m, i.Stable) :
    (reread m).map Item.view = m.map Item.view := by
  have go (n : Nat) : ((chunksOfLines n (m.map fun i => (i.text, i.kind == .comment))).map
      Item.ofChunk).map Item.view = m.map Item.view := by
    induction m generalizing n with
    | nil => rfl
    | cons i m ih =>
      have hi := h i List.mem_cons_self
      have head (k : Nat) : (Item.ofChunk ⟨k, i.text, i.kind == .comment⟩).view = i.view := by
        unfold Item.view Item.ofChunk
        by_cases hk : i.kind = .comment
        · simp [hk]
        · simp only [beq_iff_eq, hk, if_false, Prod.mk.injEq, and_true]
          exact (Kind.seen_ofStatement _ 0 _).trans (hi.kind hk)
      rw [List.map_cons, chunksOfLines, List.map_cons, List.map_cons, List.map_cons, head,
        ih fun j hj => h j (List.mem_cons_of_mem _ hj)]
  exact go 0

theorem exists_of_mem_reread {m : EsModule} (h : ∀ i ∈ m, i.Stable) {j : Item}
    (hj : j ∈ reread m) : ∃ i ∈ m, i.view = j.view := by
  have hv := List.mem_map_of_mem (f := Item.view) hj
  rw [view_reread h] at hv
  exact List.mem_map.mp hv

theorem Kind.seen_eq_comment {k : Kind} : k.seen = .comment ↔ k = .comment := by
  cases k <;> simp [seen]

theorem Item.Stable.congr {i j : Item} (hi : i.Stable) (h : i.view = j.view) : j.Stable := by
  have hk : i.kind.seen = j.kind.seen := congrArg Prod.fst h
  have ht : i.text = j.text := congrArg Prod.snd h
  have hc : i.kind = .comment ↔ j.kind = .comment := by
    rw [← Kind.seen_eq_comment, hk, Kind.seen_eq_comment]
  have hb : (i.kind == .comment) = (j.kind == .comment) := by
    rw [Bool.eq_iff_iff, beq_iff_eq, beq_iff_eq, hc]
  refine ⟨ht ▸ hb ▸ hi.line, fun hn => ?_⟩
  rw [← ht, ← hk]
  exact hi.kind fun he => hn (hc.mp he)

theorem stable_of_mem_reread {m : EsModule} (h : ∀ i ∈ m, i.Stable) {j : Item}
    (hj : j ∈ reread m) : j.Stable := by
  obtain ⟨i, hi, hv⟩ := exists_of_mem_reread h hj
  exact (h i hi).congr hv

/-- Whatever only looks at kinds and texts is the same of a module and of what is read back. -/
theorem flatMap_reread {α : Type} {m : EsModule} (h : ∀ i ∈ m, i.Stable) (f : Item → List α)
    (hf : ∀ i j : Item, i.view = j.view → f i = f j) : (reread m).flatMap f = m.flatMap f := by
  have go (a b : EsModule) (hab : a.map Item.view = b.map Item.view) :
      a.flatMap f = b.flatMap f := by
    induction a generalizing b with
    | nil => rw [List.map_eq_nil_iff.mp hab.symm]
    | cons i a ih =>
      cases b with
      | nil => simp at hab
      | cons j b =>
        obtain ⟨hij, hab⟩ := List.cons.inj hab
        rw [List.flatMap_cons, List.flatMap_cons, hf i j hij, ih b hab]
  exact go _ _ (view_reread h)

theorem exportedNames_reread {m : EsModule} (h : ∀ i ∈ m, i.Stable) :
    (reread m).exportedNames = m.exportedNames :=
  flatMap_reread h _ fun _ _ he => Item.exportedNames_congr (congrArg Prod.fst he)

theorem ofText?_eq_ok {s : List Char} {m : EsModule} :
    ofText? s = .ok m ↔ ∃ ks, chunks 0 s = .ok ks ∧ ks.map Item.ofChunk = m := by
  rw [ofText?]
  cases chunks 0 s with
  | error e => simp [Except.map]
  | ok ks => simp [Except.map]

/-- No reader finds a declaration that is no longer exported. -/
theorem ne_localDeclaration_of_ofText? {s : List Char} {m : EsModule} (h : ofText? s = .ok m)
    {i : Item} (hi : i ∈ m) (names : List String) : i.kind ≠ .localDeclaration names := by
  obtain ⟨ks, -, rfl⟩ := ofText?_eq_ok.mp h
  obtain ⟨k, -, rfl⟩ := List.mem_map.mp hi
  unfold Item.ofChunk Kind.ofStatement Kind.ofExport Kind.ofList
  simp only
  repeat' split
  all_goals simp

theorem Item.kind_ofChunk_beq (k : Chunk) : ((ofChunk k).kind == Kind.comment) = k.isComment := by
  unfold ofChunk
  cases hk : k.isComment with
  | true => rfl
  | false => simp [Kind.ofStatement_ne_comment]

/-- The items of a module that semicolons terminate are stable. -/
theorem stable_of_ofText? {s : List Char} {m : EsModule} (h : ofText? s = .ok m) {i : Item}
    (hi : i ∈ m) (ht : i.isTerminated = true) : i.Stable := by
  obtain ⟨ks, hc, rfl⟩ := ofText?_eq_ok.mp h
  obtain ⟨k, hk, rfl⟩ := List.mem_map.mp hi
  have hb := Item.kind_ofChunk_beq k
  rw [Item.isTerminated, hb, Bool.or_eq_true] at ht
  refine ⟨hb ▸ isLine_of_mem_chunks hc k hk ht, ?_⟩
  intro hn
  have hk : k.isComment = false := by
    rw [← hb]
    simpa using hn
  simp only [Item.ofChunk, hk, Bool.false_eq_true, if_false]
  exact Kind.seen_ofStatement _ _ _

end StyleExports.EsModule
