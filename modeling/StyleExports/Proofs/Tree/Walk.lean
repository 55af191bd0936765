import Mathlib.Data.List.Infix
import StyleExports.Proofs.Tree.Drill

namespace StyleExports

theorem Value.isLeaf_iff {v : Option Value} : Value.isLeaf v = true ↔ ∃ x, v = some (.leaf x) := by
  cases v with
  | none => simp [isLeaf]
  | some v => cases v <;> simp [isLeaf]

namespace Tree

/-- The numbers of the segments of a path that land on a leaf, noted on the way down. -/
def leavesMet : List String → Tree → List Nat
  | [], _ => []
  | k :: p, t =>
    let below := (leavesMet p (Value.tree (t.get? k))).map (· + 1)
    if Value.isLeaf (t.get? k) then 0 :: below else below

def leavesOn (p : List String) (t : Tree) : List (List String) :=
  p.inits.filter fun q => Value.isLeaf (t.getPath? q)

/-- The tree of the node at the end of a path; the empty path leads to the tree itself. -/
def nodeAt? : List String → Tree → Option Tree
  | [], t => some t
  | k :: p, t =>
    match t.get? k with
    | some (.node u) => u.nodeAt? p
    | _ => none

variable {f : Tree → Tree} {p q r : List String} {t u w : Tree} {k : String} {i : Nat}

theorem collision?_empty (p : List String) : empty.collision? p = none := by
  induction p with
  | nil => rfl
  | cons k p ih => exact congrArg (Option.map (· + 1)) ih

/-- Below a leaf that gave way every node is new, so no second one is met. -/
theorem leavesMet_eq (p : List String) (t : Tree) : leavesMet p t = (t.collision? p).toList := by
  induction p generalizing t with
  | nil => rfl
  | cons k p ih =>
    rw [leavesMet, collision?, ih]
    cases t.get? k with
    | none => simp [Value.isLeaf, Value.tree, collision?_empty]
    | some v =>
      cases v with
      | leaf x => simp [Value.isLeaf, Value.tree, collision?_empty]
      | node u => cases h : u.collision? p <;> simp [Value.isLeaf, Value.tree, h]

theorem length_leavesMet (p : List String) (t : Tree) : (leavesMet p t).length ≤ 1 := by
  rw [leavesMet_eq]
  cases t.collision? p <;> simp

theorem getPath?_singleton (k : String) (t : Tree) : t.getPath? [k] = t.get? k := rfl

/-- A path meets the leaf that a start of it leads to. -/
theorem collision?_eq_some_iff : t.collision? p = some i ↔
    i < p.length ∧ ∃ x, t.getPath? (p.take (i + 1)) = some (.leaf x) := by
  induction p generalizing t i with
  | nil => simp [collision?]
  | cons k p ih =>
    rw [collision?]
    cases i with
    | zero =>
      rw [Nat.zero_add, List.take_succ_cons, List.take_zero, getPath?_singleton, ← Value.isLeaf_iff]
      by_cases hl : Value.isLeaf (t.get? k) = true <;> simp [hl]
    | succ i =>
      rw [List.take_succ_cons, List.length_cons, Nat.add_lt_add_iff_right]
      have below : i < p.length → t.getPath? (k :: p.take (i + 1)) =
          (Value.tree (t.get? k)).getPath? (p.take (i + 1)) := by
        intro hi
        have hne : p.take (i + 1) ≠ [] := by
          rw [Ne, List.take_eq_nil_iff]
          rintro (h | rfl)
          · omega
          · simp at hi
        exact getPath?_cons hne k t
      by_cases hl : Value.isLeaf (t.get? k) = true
      · obtain ⟨x, hx⟩ := Value.isLeaf_iff.mp hl
        simp only [hl, if_true, Option.some.injEq, Nat.zero_ne_add_one, false_iff, not_and]
        intro hi
        rw [below hi, hx]
        simp [Value.tree]
      · rw [if_neg hl, Option.map_eq_some_iff]
        constructor
        · rintro ⟨j, hj, hji⟩
          obtain rfl : j = i := by omega
          obtain ⟨hi, x, hx⟩ := ih.mp hj
          exact ⟨hi, x, (below hi).trans hx⟩
        · rintro ⟨hi, x, hx⟩
          exact ⟨i, ih.mpr ⟨hi, x, (below hi).symm.trans hx⟩, rfl⟩

theorem collision?_eq_none_iff :
    t.collision? p = none ↔ ∀ q, q <+: p → ∀ x, t.getPath? q ≠ some (.leaf x) := by
  constructor
  · rintro h q hq x hx
    have hne : q ≠ [] := by
      rintro rfl
      simp [getPath?] at hx
    obtain ⟨i, hi⟩ : ∃ i, q.length = i + 1 :=
      Nat.exists_eq_succ_of_ne_zero (List.length_pos_iff.mpr hne).ne'
    have start : p.take (i + 1) = q := hi ▸ (List.prefix_iff_eq_take.mp hq).symm
    have met : t.collision? p = some i :=
      collision?_eq_some_iff.mpr ⟨by have := hq.length_le; omega, x, start ▸ hx⟩
    simp [h] at met
  · intro h
    by_contra hne
    obtain ⟨i, hi⟩ := Option.ne_none_iff_exists'.mp hne
    obtain ⟨-, x, hx⟩ := collision?_eq_some_iff.mp hi
    exact h _ (List.take_prefix _ _) x hx

theorem filter_inits_cons (k : String) (p : List String) (t : Tree) :
    (p.inits.filter fun q => Value.isLeaf (t.getPath? (k :: q))) =
      (if Value.isLeaf (t.get? k) then [[]] else []) ++ (Value.tree (t.get? k)).leavesOn p := by
  have start : p.inits = [] :: p.inits.tail := by cases p <;> simp
  have others : ∀ q ∈ p.inits.tail, q ≠ [] := by cases p <;> simp
  have below : (p.inits.tail.filter fun q => Value.isLeaf (t.getPath? (k :: q))) =
      p.inits.tail.filter fun q => Value.isLeaf ((Value.tree (t.get? k)).getPath? q) :=
    List.filter_congr fun q hq => by rw [getPath?_cons (others q hq)]
  rw [leavesOn, start, List.filter_cons, List.filter_cons, below, getPath?_singleton]
  cases Value.isLeaf (t.get? k) <;> simp [getPath?, Value.isLeaf]

/-- The leaves on the way are those that the walk notes. -/
theorem leavesOn_eq (p : List String) (t : Tree) :
    t.leavesOn p = (t.collision? p).toList.map fun i => p.take (i + 1) := by
  induction p generalizing t with
  | nil => rfl
  | cons k p ih =>
    have first : t.leavesOn (k :: p) =
        (p.inits.filter fun q => Value.isLeaf (t.getPath? (k :: q))).map (k :: ·) := by
      rw [leavesOn, List.inits_cons, List.filter_cons, List.filter_map]
      rfl
    rw [first, filter_inits_cons, ih, collision?]
    cases t.get? k with
    | none => simp [Value.isLeaf, Value.tree, collision?_empty]
    | some v =>
      cases v with
      | leaf x => simp [Value.isLeaf, Value.tree, collision?_empty]
      | node u => cases h : u.collision? p <;> simp [Value.isLeaf, Value.tree, h]

theorem nodeAt?_cons (k : String) (p : List String) (t : Tree) (h : t.nodeAt? (k :: p) = some u) :
    ∃ v, t.get? k = some (.node v) ∧ v.nodeAt? p = some u := by
  rw [nodeAt?] at h
  split at h
  · exact ⟨_, ‹_›, h⟩
  · simp at h

theorem nodeAt?_eq_some_iff (hp : p ≠ []) :
    t.nodeAt? p = some u ↔ t.getPath? p = some (.node u) := by
  induction p generalizing t with
  | nil => exact absurd rfl hp
  | cons k p ih =>
    cases p with
    | nil =>
      rw [nodeAt?, getPath?_singleton]
      match t.get? k with
      | none => simp
      | some (.leaf x) => simp
      | some (.node v) => simp [nodeAt?]
    | cons l p =>
      rw [nodeAt?, getPath?_cons (List.cons_ne_nil l p)]
      match t.get? k with
      | none => simp [Value.tree]
      | some (.leaf x) => simp [Value.tree]
      | some (.node v) => exact ih (List.cons_ne_nil l p)

/-- On the drilled path a node is what drilling down the rest of the path makes of it. -/
theorem nodeAt?_drill (f : Tree → Tree) (q r : List String) (t : Tree) :
    (t.drill f (q ++ r)).nodeAt? q = some ((t.subtree q).drill f r) := by
  induction q generalizing t with
  | nil => rfl
  | cons k q ih =>
    rw [List.cons_append, drill, nodeAt?, get?_alter, if_pos rfl]
    exact ih (Value.tree (t.get? k))

theorem subtree_of_nodeAt? (h : t.nodeAt? q = some u) : t.subtree q = u := by
  induction q generalizing t with
  | nil => exact Option.some.inj h
  | cons k q ih =>
    obtain ⟨v, hv, hu⟩ := nodeAt?_cons k q t h
    rw [subtree, hv]
    exact ih hu

theorem subtree_eq (hq : q ≠ []) (t : Tree) : t.subtree q = Value.tree (t.getPath? q) := by
  induction q generalizing t with
  | nil => exact absurd rfl hq
  | cons k q ih =>
    cases q with
    | nil => rfl
    | cons l q =>
      rw [subtree, ih (List.cons_ne_nil l q), getPath?_cons (List.cons_ne_nil l q)]

theorem getPath?_drill_id (h : ¬ q <+: p) (t : Tree) :
    (t.drill id p).getPath? q = t.getPath? q := by
  by_cases beyond : p <+: q
  · obtain ⟨r, rfl⟩ := beyond
    have hr : r ≠ [] := by
      rintro rfl
      simp at h
    rw [getPath?_drill_append hr, getPath?_append hr]
    rfl
  · exact getPath?_drill_of_apart h beyond id t

/-- What the walk down a path makes of a tree `t`: the tree `u`, with the segments `met` noted. -/
structure Walked (p : List String) (t u : Tree) (met : List Nat) : Prop where
  node : ∀ q, q ≠ [] → q <+: p → ∃ w, u.getPath? q = some (.node w)
  /-- The walk ends at the last of them: what is done there is done to it. -/
  last : ∃ w, u.nodeAt? p = some w ∧
    ∀ f, t.drill f p = u.drill f p ∧ (t.drill f p).nodeAt? p = some (f w)
  length_le : met.length ≤ 1
  mem_iff : ∀ i, i ∈ met ↔ i < p.length ∧ ∃ x, t.getPath? (p.take (i + 1)) = some (.leaf x)
  /-- A leaf on the path becomes an empty node, and the walk goes on in it. -/
  emptied : ∀ q r x, q ++ r = p → t.getPath? q = some (.leaf x) →
    u.getPath? q = some (.node (empty.drill id r))
  frame : ∀ q, ¬ q <+: p → u.getPath? q = t.getPath? q
  /-- A node keeps its names in their order; the next segment of the path comes last if it is new. -/
  keys : ∀ q w, t.nodeAt? q = some w → ∃ v, u.nodeAt? q = some v ∧
    (∀ k r, q ++ k :: r = p → v.keys = if k ∈ w.keys then w.keys else w.keys ++ [k]) ∧
    ((∀ k r, q ++ k :: r ≠ p) → v = w)
  again : u.drill id p = u ∧ leavesMet p u = []

theorem drill_id_again (p : List String) (t : Tree) :
    (t.drill id p).drill id p = t.drill id p ∧ leavesMet p (t.drill id p) = [] := by
  refine ⟨drill_drill id id p t, ?_⟩
  rw [leavesMet_eq, collision?_drill]
  rfl

theorem keys_walk (h : t.nodeAt? q = some w) : ∃ v, (t.drill id p).nodeAt? q = some v ∧
    (∀ k r, q ++ k :: r = p → v.keys = if k ∈ w.keys then w.keys else w.keys ++ [k]) ∧
    ((∀ k r, q ++ k :: r ≠ p) → v = w) := by
  by_cases on : q <+: p
  · obtain ⟨r, rfl⟩ := on
    refine ⟨w.drill id r, ?_, ?_, ?_⟩
    · rw [nodeAt?_drill, subtree_of_nodeAt? h]
    · intro k s hs
      obtain rfl := List.append_cancel_left hs
      exact keys_alter k _ w
    · intro hr
      cases r with
      | nil => rfl
      | cons k s => exact absurd rfl (hr k s)
  · have hq : q ≠ [] := by
      rintro rfl
      exact on List.nil_prefix
    refine ⟨w, ?_, ?_, fun _ => rfl⟩
    · rw [nodeAt?_eq_some_iff hq] at h ⊢
      rw [getPath?_drill_id on, h]
    · rintro k r rfl
      exact absurd (List.prefix_append q (k :: r)) on

/-- Drilling down a path and changing nothing at its end is the walk. -/
theorem walked_drill (p : List String) (t : Tree) :
    Walked p t (t.drill id p) (leavesMet p t) where
  node := fun q hq h => getPath?_drill_of_prefix hq h id t
  last := by
    have whole (f : Tree → Tree) : (t.drill f p).nodeAt? p = some (f (t.subtree p)) := by
      have h := nodeAt?_drill f p [] t
      rwa [List.append_nil] at h
    exact ⟨t.subtree p, whole id, fun f => ⟨(drill_drill id f p t).symm, whole f⟩⟩
  length_le := length_leavesMet p t
  mem_iff := fun i => by rw [leavesMet_eq, Option.mem_toList, collision?_eq_some_iff]
  emptied := by
    rintro q r x rfl hx
    have hq : q ≠ [] := by
      rintro rfl
      simp [getPath?] at hx
    rw [← nodeAt?_eq_some_iff hq, nodeAt?_drill, subtree_eq hq, hx]
    rfl
  frame := fun q h => getPath?_drill_id h t
  keys := fun _ _ h => keys_walk h
  again := drill_id_again p t

example : (leaf "nav" "red" empty).drill id ["nav", "item"] =
    .node "nav" (.node "item" .empty .empty) .empty ∧
      leavesMet ["nav", "item"] (leaf "nav" "red" empty) = [0] := by decide

end Tree

end StyleExports
