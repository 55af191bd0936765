import Mathlib.Data.List.Induction
import StyleExports.Tree.Basic

namespace StyleExports.Tree

variable {f g : Tree → Tree} {p q r : List String} {t : Tree} {k : String} {v : Value}

@[simp] theorem getPath?_empty (p : List String) : getPath? p empty = none := by
  match p with
  | [] => rfl
  | [k] => rfl
  | k :: l :: p => rfl

theorem getPath?_cons (hp : p ≠ []) (k : String) (t : Tree) :
    t.getPath? (k :: p) = (Value.tree (t.get? k)).getPath? p := by
  rw [getPath?]
  · cases t.get? k with
    | none => exact (getPath?_empty p).symm
    | some v =>
      cases v with
      | leaf x => exact (getPath?_empty p).symm
      | node u => rfl
  · exact hp

theorem getPath?_append (hr : r ≠ []) (q : List String) (t : Tree) :
    t.getPath? (q ++ r) = (t.subtree q).getPath? r := by
  induction q generalizing t with
  | nil => rfl
  | cons k q ih =>
    rw [List.cons_append, getPath?_cons (List.append_ne_nil_of_right_ne_nil q hr), ih]
    rfl

theorem getPath?_alter_cons (hp : p ≠ []) (k l : String) (g : Option Value → Value) (t : Tree) :
    (t.alter k g).getPath? (l :: p) =
      if k = l then (Value.tree (some (g (t.get? k)))).getPath? p else t.getPath? (l :: p) := by
  rw [getPath?_cons hp, get?_alter, getPath?_cons hp]
  split <;> rfl

/-- Beyond the drilled path a path leads into the changed tree. -/
theorem getPath?_drill_append (hr : r ≠ []) (f : Tree → Tree) (q : List String) (t : Tree) :
    (t.drill f q).getPath? (q ++ r) = (f (t.subtree q)).getPath? r := by
  induction q generalizing t with
  | nil => rfl
  | cons k q ih =>
    rw [List.cons_append, drill, getPath?_alter_cons (List.append_ne_nil_of_right_ne_nil q hr),
      if_pos rfl]
    exact ih (Value.tree (t.get? k))

/-- On the drilled path there are nodes. -/
theorem getPath?_drill_of_prefix (hp : p ≠ []) (h : p <+: q) (f : Tree → Tree) (t : Tree) :
    ∃ u, (t.drill f q).getPath? p = some (.node u) := by
  induction p generalizing q t with
  | nil => exact absurd rfl hp
  | cons k p ih =>
    obtain ⟨r, rfl⟩ := h
    rw [List.cons_append, drill]
    cases p with
    | nil => exact ⟨_, by rw [getPath?, get?_alter, if_pos rfl]⟩
    | cons l p =>
      rw [getPath?_alter_cons (List.cons_ne_nil l p), if_pos rfl]
      exact ih (List.cons_ne_nil l p) (List.prefix_append _ _) (Value.tree (t.get? k))

theorem getPath?_drill_ne_leaf {x : String} (h : p <+: q) (f : Tree → Tree) :
    (t.drill f q).getPath? p ≠ some (.leaf x) := by
  intro leaf
  by_cases hp : p = []
  · simp [hp, getPath?] at leaf
  · obtain ⟨u, hu⟩ := getPath?_drill_of_prefix hp h f t
    simp [hu] at leaf

/-- Away from the drilled path nothing changes. -/
theorem getPath?_drill_of_apart (hp : ¬ p <+: q) (hq : ¬ q <+: p) (f : Tree → Tree) (t : Tree) :
    (t.drill f q).getPath? p = t.getPath? p := by
  induction q generalizing p t with
  | nil => exact absurd (List.nil_prefix) hq
  | cons k q ih =>
    rw [drill]
    match p with
    | [] => exact absurd (List.nil_prefix) hp
    | [l] =>
      have hkl : k ≠ l := by
        rintro rfl
        exact hp (by simp)
      rw [getPath?, getPath?, get?_alter, if_neg hkl]
    | l :: m :: p =>
      rw [getPath?_alter_cons (List.cons_ne_nil m p)]
      by_cases hkl : k = l
      · subst hkl
        rw [List.cons_prefix_cons] at hp hq
        rw [if_pos rfl, getPath?_cons (List.cons_ne_nil m p)]
        exact ih (fun h => hp ⟨rfl, h⟩) (fun h => hq ⟨rfl, h⟩) (Value.tree (t.get? k))
      · rw [if_neg hkl]

theorem get?_insert (t : Tree) (k l : String) (v : Value) :
    (t.insert k v).get? l = if k = l then some v else t.get? l := get?_alter l k (fun _ => v) t

theorem get?_insertAll (es : List (String × Value)) (t : Tree) (k : String) :
    (t.insertAll es).get? k =
      (((es.filter (·.1 = k)).getLast?).map (·.2)).or (t.get? k) := by
  induction es using List.reverseRecOn with
  | nil => rfl
  | append_singleton es e ih =>
    rw [insertAll, List.foldl_append]
    change ((t.insertAll es).insert e.1 e.2).get? k = _
    rw [get?_insert, ih, List.filter_append]
    by_cases h : e.1 = k
    · simp [h]
    · simp [h]

theorem alter_congr {g h : Option Value → Value} (e : g (t.get? k) = h (t.get? k)) :
    t.alter k g = t.alter k h := by
  induction t with
  | empty => exact congrArg (bind k · empty) e
  | leaf l x rest ih =>
    rw [get?] at e
    rw [alter, alter]
    split
    · rw [if_pos ‹_›] at e
      rw [e]
    · rw [if_neg ‹_›] at e
      rw [ih e]
  | node l u rest _ ih =>
    rw [get?] at e
    rw [alter, alter]
    split
    · rw [if_pos ‹_›] at e
      rw [e]
    · rw [if_neg ‹_›] at e
      rw [ih e]

theorem alter_bind (k : String) (v : Value) (g : Option Value → Value) (t : Tree) :
    (bind k v t).alter k g = bind k (g (some v)) t := by
  cases v <;> simp [bind, alter]

theorem alter_alter (k : String) (g h : Option Value → Value) (t : Tree) :
    (t.alter k g).alter k h = t.alter k fun v => h (some (g v)) := by
  induction t with
  | empty => exact alter_bind k (g none) h empty
  | leaf l x rest ih =>
    by_cases hl : l = k
    · subst hl
      simp [alter, alter_bind]
    · simp [alter, hl, ih]
  | node l u rest _ ih =>
    by_cases hl : l = k
    · subst hl
      simp [alter, alter_bind]
    · simp [alter, hl, ih]

theorem get?_eq_none (hk : k ∉ t.keys) : t.get? k = none := by
  induction t with
  | empty => rfl
  | leaf l x rest ih =>
    rw [keys, entries, List.map_cons, List.mem_cons, not_or] at hk
    rw [get?, if_neg (Ne.symm hk.1), ih hk.2]
  | node l u rest _ ih =>
    rw [keys, entries, List.map_cons, List.mem_cons, not_or] at hk
    rw [get?, if_neg (Ne.symm hk.1), ih hk.2]

theorem drill_congr (h : f (t.subtree p) = g (t.subtree p)) : t.drill f p = t.drill g p := by
  induction p generalizing t with
  | nil => exact h
  | cons k p ih => exact alter_congr (congrArg Value.node (ih h))

theorem drill_append (f : Tree → Tree) (p q : List String) (t : Tree) :
    t.drill f (p ++ q) = t.drill (·.drill f q) p := by
  induction p generalizing t with
  | nil => rfl
  | cons k p ih => exact alter_congr (congrArg Value.node (ih _))

theorem drill_drill (f g : Tree → Tree) (p : List String) (t : Tree) :
    (t.drill f p).drill g p = t.drill (fun u => g (f u)) p := by
  induction p generalizing t with
  | nil => rfl
  | cons k p ih =>
    rw [drill, drill, drill, alter_alter]
    exact alter_congr (congrArg Value.node (ih _))

theorem subtree_append (p q : List String) (t : Tree) :
    t.subtree (p ++ q) = (t.subtree p).subtree q := by
  induction p generalizing t with
  | nil => rfl
  | cons k p ih => exact ih _

theorem subtree_drill (f : Tree → Tree) (p : List String) (t : Tree) :
    (t.drill f p).subtree p = f (t.subtree p) := by
  induction p generalizing t with
  | nil => rfl
  | cons k p ih =>
    rw [drill, subtree, get?_alter, if_pos rfl]
    exact ih _

/-- A path in two parts meets no leaf if neither part does. -/
theorem collision?_append (p q : List String) (t : Tree) : t.collision? (p ++ q) = none ↔
    t.collision? p = none ∧ (t.subtree p).collision? q = none := by
  induction p generalizing t with
  | nil => simp [collision?, subtree]
  | cons k p ih =>
    rw [List.cons_append, collision?, collision?]
    split
    · simp
    · rw [Option.map_eq_none_iff, Option.map_eq_none_iff]
      exact ih _

theorem collision?_drill (f : Tree → Tree) (p : List String) (t : Tree) :
    (t.drill f p).collision? p = none := by
  induction p generalizing t with
  | nil => rfl
  | cons k p ih =>
    rw [drill, collision?, get?_alter, if_pos rfl, if_neg (by simp [Value.isLeaf]),
      Option.map_eq_none_iff]
    exact ih _

end StyleExports.Tree
