import StyleExports.Fragment
import StyleExports.Proofs.Text.Quoted
import StyleExports.Proofs.Text.Separator

namespace StyleExports

open Text

def Value.member (e : String × Value) : List Char :=
  Quoted.encode e.1.toList ++ ':' :: e.2.literal

namespace Tree

variable {t u : Tree}

theorem jsonMembers_eq_map (t : Tree) : t.jsonMembers = t.entries.map Value.member := by
  induction t with
  | empty => rfl
  | leaf k x rest ih => rw [jsonMembers, entries, List.map_cons, ih]; rfl
  | node k u rest _ ih => rw [jsonMembers, entries, List.map_cons, ih]; rfl

theorem entries_injective (h : t.entries = u.entries) : t = u := by
  induction t generalizing u with
  | empty =>
    cases u with
    | empty => rfl
    | leaf => simp [entries] at h
    | node => simp [entries] at h
  | leaf k x rest ih =>
    cases u with
    | empty => simp [entries] at h
    | leaf l y others =>
      simp only [entries, List.cons.injEq, Prod.mk.injEq, Value.leaf.injEq] at h
      obtain ⟨⟨rfl, rfl⟩, h⟩ := h
      rw [ih h]
    | node => simp [entries] at h
  | node k v rest _ ih =>
    cases u with
    | empty => simp [entries] at h
    | leaf => simp [entries] at h
    | node l w others =>
      simp only [entries, List.cons.injEq, Prod.mk.injEq, Value.node.injEq] at h
      obtain ⟨⟨rfl, rfl⟩, h⟩ := h
      rw [ih h]

end Tree

namespace Value

/-- The literal of a value, in front of any text, tells the value and where it ends. -/
def Legible (v : Value) : Prop :=
  ∀ w s r, v.literal ++ s = w.literal ++ r → v = w ∧ s = r

theorem legible_leaf (x : String) : (leaf x).Legible := by
  intro w s r h
  cases w with
  | leaf y =>
    obtain ⟨text, rest⟩ := Quoted.encode_append_inj h
    exact ⟨congrArg leaf (String.toList_inj.mp text), rest⟩
  | node u => exact absurd (List.cons.inj h).1 (by decide)

theorem tells_member {p : Char → Prop} {e : String × Value} (h : e.2.Legible) :
    Tells p member id e := by
  intro e' c d s r _ _ he
  simp only [member, List.append_assoc, List.cons_append] at he
  obtain ⟨name, rest⟩ := Quoted.encode_append_inj he
  obtain ⟨value, after⟩ := h _ _ _ (List.cons.inj rest).2
  exact ⟨Prod.ext (String.toList_inj.mp name) value, after⟩

/-- An object tells its members, if they can be told. -/
theorem legible_node {t : Tree} (h : ∀ e ∈ t.entries, e.2.Legible) : (node t).Legible := by
  intro w s r he
  cases w with
  | leaf y => exact absurd (List.cons.inj he).1 (by decide)
  | node u =>
    have inside : join [','] (t.entries.map member) ++ '}' :: s =
        join [','] (u.entries.map member) ++ '}' :: r := by
      simpa [literal, Tree.jsonChars, Tree.jsonMembers_eq_map] using he
    have both : t.entries = u.entries ∧ s = r := by
      have opens (e : String × Value) (es : List (String × Value)) (q : List Char) :
          ∃ v, join [','] ((e :: es).map member) ++ q = '"' :: v :=
        ⟨_, by rw [List.map_cons, join_cons]; rfl⟩
      cases ht : t.entries with
      | nil =>
        cases hu : u.entries with
        | nil =>
          rw [ht, hu] at inside
          exact ⟨rfl, (List.cons.inj inside).2⟩
        | cons e es =>
          obtain ⟨v, hv⟩ := opens e es ('}' :: r)
          rw [ht, hu, hv] at inside
          exact absurd (List.cons.inj inside).1 (by decide)
      | cons e es =>
        cases hu : u.entries with
        | nil =>
          obtain ⟨v, hv⟩ := opens e es ('}' :: s)
          rw [ht, hu, hv] at inside
          exact absurd (List.cons.inj inside).1 (by decide)
        | cons e' es' =>
          rw [ht] at h
          rw [ht, hu] at inside
          have parts := join_append_inj (p := fun _ => True) trivial trivial (by decide)
            (fun z hz => tells_member (h z hz)) inside
          rwa [List.map_id, List.map_id] at parts
    exact ⟨congrArg node (Tree.entries_injective both.1), both.2⟩

theorem legible_entries (t : Tree) : ∀ e ∈ t.entries, e.2.Legible := by
  induction t with
  | empty => simp [Tree.entries]
  | leaf k x rest ih => exact List.forall_mem_cons.mpr ⟨legible_leaf x, ih⟩
  | node k u rest ihu ih => exact List.forall_mem_cons.mpr ⟨legible_node ihu, ih⟩

/-- Every literal tells its value and where it ends. -/
theorem literal_append_inj {v w : Value} {s r : List Char}
    (h : v.literal ++ s = w.literal ++ r) : v = w ∧ s = r := by
  have legible : v.Legible := by
    cases v with
    | leaf x => exact legible_leaf x
    | node t => exact legible_node (legible_entries t)
  exact legible w s r h

end Value

end StyleExports
