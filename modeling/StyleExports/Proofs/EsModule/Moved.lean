import StyleExports.Proofs.EsModule.DefaultExport
import StyleExports.Proofs.EsModule.Leads
import StyleExports.Proofs.Text.Place

namespace StyleExports.EsModule

open Text

/-- A kind with the place of a brace so much further behind. -/
def Kind.moved (n : Nat) : Kind → Kind
  | .exportDefault brace => .exportDefault (brace.map (· + n))
  | k => k

def Item.moved (n : Nat) (i : Item) : Item := ⟨i.text, i.start + n, i.stop + n, i.kind.moved n⟩

/-- Which of the kinds it is, without names, specifiers and places. -/
def Kind.form : Kind → Kind
  | .declaration _ => .declaration []
  | .exportList _ _ => .exportList [] none
  | .exportAll _ => .exportAll none
  | .localDeclaration _ => .localDeclaration []
  | .exportDefault _ => .exportDefault none
  | k => k

section

variable {n m : Nat} {u v w : List Char} {c : Char} {ks js : List Chunk}

theorem Kind.ofStatement_moved (n : Nat) (h : size u ≤ m) :
    ofStatement (m + n) u = (ofStatement m u).moved n := by
  unfold ofStatement
  cases afterKeyword? "import".toList u with
  | some rest =>
    dsimp only
    split <;> rfl
  | none =>
    cases he : afterKeyword? "export".toList u with
    | none => rfl
    | some rest =>
      simp only [ofExport]
      cases hd : afterKeyword? "default".toList (trimStart rest) with
      | none =>
        simp only [ofList]
        repeat' split
        all_goals rfl
      | some r =>
        simp only
        split
        · rename_i inner hb
          have first : size (trimStart rest) ≤ size rest := size_dropWhile_le ..
          have second : size (trimStart r) ≤ size r := size_dropWhile_le ..
          have outer := congrArg size (eq_append_of_keyword he)
          have middle := congrArg size (eq_append_of_keyword hd)
          rw [size_append] at outer middle
          rw [hb] at second
          have place : m + n - size ('{' :: inner) = m - size ('{' :: inner) + n := by omega
          rw [moved, Option.map_some, place]
        · rfl

theorem ofChunk_moved (n : Nat) (k : Chunk) :
    Item.ofChunk { k with start := k.start + n } = (Item.ofChunk k).moved n := by
  have stop : k.start + n + size k.text = k.stop + n := by
    rw [Chunk.stop]
    omega
  have kind := Kind.ofStatement_moved (m := k.stop) n (u := k.text) (Nat.le_add_left ..)
  unfold Item.ofChunk Item.moved
  rw [Chunk.stop, stop, kind]
  cases k.isComment <;> rfl

theorem map_ofChunk_moved (h : js.map (fun k => (k.face, k.start + m)) =
    ks.map fun k => (k.face, k.start + (m + n))) :
    js.map Item.ofChunk = (ks.map Item.ofChunk).map (Item.moved n) := by
  have injective : Function.Injective fun k : Chunk => (k.face, k.start + m) := by
    rintro ⟨i, s, b⟩ ⟨j, t, d⟩ he
    simp only [Chunk.face, Prod.mk.injEq, Nat.add_right_cancel_iff] at he
    obtain ⟨⟨rfl, rfl⟩, rfl⟩ := he
    rfl
  have same : js = ks.map fun k => { k with start := k.start + n } := by
    apply List.map_injective_iff.mpr injective
    rw [h, List.map_map]
    refine List.map_congr_left fun k _ => Prod.ext rfl ?_
    exact (Nat.add_right_comm ..).trans (Nat.add_assoc ..) |>.symm
  rw [same, List.map_map, List.map_map]
  exact List.map_congr_left fun k _ => ofChunk_moved n k

/-- Of what an export exports, its form is told by its first word or mark. -/
theorem Kind.form_ofExport (n : Nat) (c : Char) (v : List Char) : (ofExport n (c :: v)).form =
    if (afterKeyword? "default".toList (c :: v)).isSome then .exportDefault none
    else if c = '*' then .exportAll none
    else if c = '{' then .exportList [] none
    else .declaration [] := by
  unfold ofExport
  cases afterKeyword? "default".toList (c :: v) with
  | some r =>
    dsimp only
    split <;> rfl
  | none =>
    simp only [Option.isSome_none, Bool.false_eq_true, if_false]
    by_cases star : c = '*'
    · rw [star]
      rfl
    by_cases brace : c = '{'
    · rw [brace, if_neg (by decide), if_pos rfl]
      change (ofList v).form = _
      rw [ofList]
      split <;> rfl
    · simp [star, brace, form]

theorem trimStart_append {r : List Char} (hr : trimStart r ≠ []) (v : List Char) :
    trimStart (r ++ v) = trimStart r ++ v := by
  unfold trimStart at hr ⊢
  rw [List.dropWhile_append, if_neg (by simpa using hr)]

/-- A keyword with more than blanks behind it is one before every text with which no word goes on. -/
theorem afterKeyword?_append_some {k r : List Char} (hk : trimEnd k = k)
    (hv : ∀ c ∈ v.head?, isIdentChar c = false) (h : afterKeyword? k u = some r)
    (hu : trimEnd u ≠ k) :
    afterKeyword? k (u ++ v) = some (r ++ v) ∧ trimStart r ≠ [] := by
  obtain ⟨rfl, hr⟩ := afterKeyword?_eq_some.mp h
  constructor
  · rw [List.append_assoc]
    apply afterKeyword?_append
    cases r with
    | nil => exact hv
    | cons c r => exact hr
  · intro blank
    apply hu
    rw [trimEnd, dropEndWhile_append_of_all k (List.dropWhile_eq_nil_iff.mp blank)]
    exact hk

theorem afterKeyword?_append_none {k : List Char} (hk : ∀ c ∈ k, isIdentChar c = true)
    (hv : ∀ c ∈ v.head?, isIdentChar c = false) (h : afterKeyword? k u = none) :
    afterKeyword? k (u ++ v) = none := by
  have same := afterKeyword?_isSome_of_head (s := u) hk hv
  rw [h] at same
  simpa using same

/-- The form of a statement is told by what stands in front of a place where no word goes on, if more
than the keyword of an import or an export stands there. -/
theorem Kind.form_ofStatement (hv : ∀ c ∈ v.head?, isIdentChar c = false)
    (hw : ∀ c ∈ w.head?, isIdentChar c = false) (hi : trimEnd u ≠ "import".toList)
    (he : trimEnd u ≠ "export".toList) :
    (ofStatement n (u ++ v)).form = (ofStatement m (u ++ w)).form := by
  unfold ofStatement
  cases himport : afterKeyword? "import".toList u with
  | some r =>
    obtain ⟨first, some⟩ := afterKeyword?_append_some (by decide) hv himport hi
    obtain ⟨second, -⟩ := afterKeyword?_append_some (by decide) hw himport hi
    rw [first, second]
    dsimp only
    rw [trimStart_append some, trimStart_append some]
    obtain ⟨c, r, hr⟩ := List.exists_cons_of_ne_nil some
    rw [hr, List.cons_append, List.cons_append]
    by_cases call : c = '('
    · rw [call]
      rfl
    by_cases member : c = '.'
    · rw [member]
      rfl
    · simp [call, member]
  | none =>
    have letters : ∀ c ∈ "import".toList, isIdentChar c = true := forall_mem_of_all (by decide)
    rw [afterKeyword?_append_none letters hv himport, afterKeyword?_append_none letters hw himport]
    dsimp only
    cases hexport : afterKeyword? "export".toList u with
    | none =>
      have letters : ∀ c ∈ "export".toList, isIdentChar c = true := forall_mem_of_all (by decide)
      rw [afterKeyword?_append_none letters hv hexport, afterKeyword?_append_none letters hw hexport]
    | some r =>
      obtain ⟨first, some⟩ := afterKeyword?_append_some (by decide) hv hexport he
      obtain ⟨second, -⟩ := afterKeyword?_append_some (by decide) hw hexport he
      rw [first, second]
      dsimp only
      rw [trimStart_append some, trimStart_append some]
      obtain ⟨c, r, hr⟩ := List.exists_cons_of_ne_nil some
      have letters : ∀ c ∈ "default".toList, isIdentChar c = true := forall_mem_of_all (by decide)
      have default := (afterKeyword?_isSome_of_head (s := c :: r) letters hv).trans
        (afterKeyword?_isSome_of_head letters hw).symm
      rw [List.cons_append, List.cons_append] at default
      rw [hr, List.cons_append, List.cons_append, form_ofExport, form_ofExport, default]

end

end StyleExports.EsModule
