import StyleExports.Proofs.Tree.Preorder
import StyleExports.Proofs.Tree.Walk

namespace StyleExports

/-- What a name is bound to when a value comes over its binding. -/
def Value.over (old : Option Value) : Value → Value
  | .leaf x => .leaf x
  | .node u =>
    match old with
    | some (.node s) => .node (s.merge u)
    | _ => .node u

namespace Tree

variable {a b s t u w : Tree} {k x : String} {v : Value} {p : List String}

/-- Induction over the entries of a tree, leaves and nodes alike. -/
theorem bind_induction {motive : Tree → Prop} (empty : motive .empty)
    (bind : ∀ k v rest, (∀ u, v = .node u → motive u) → motive rest → motive (bind k v rest))
    (t : Tree) : motive t := by
  induction t with
  | empty => exact empty
  | leaf k x rest ih => exact bind k (.leaf x) rest (by simp) ih
  | node k u rest ihu ih => exact bind k (.node u) rest (by rintro _ ⟨⟩; exact ihu) ih

@[simp] theorem keys_bind (k : String) (v : Value) (t : Tree) : (bind k v t).keys = k :: t.keys := by
  simp [keys]

theorem distinct_bind : (bind k v t).Distinct ↔
    k ∉ t.keys ∧ (∀ u, v = .node u → u.Distinct) ∧ t.Distinct := by
  cases v <;> simp [bind, Distinct]

theorem append_bind (k : String) (v : Value) (s t : Tree) :
    (bind k v s).append t = bind k v (s.append t) := by
  cases v <;> rfl

theorem alter_bind_of_ne (h : k ≠ x) (v : Value) (g : Option Value → Value) (t : Tree) :
    (bind k v t).alter x g = bind k v (t.alter x g) := by
  cases v <;> simp [bind, alter, h]

theorem merge_bind (a : Tree) (k : String) (v : Value) (rest : Tree) :
    a.merge (bind k v rest) = (a.alter k (Value.over · v)).merge rest := by
  cases v <;> rfl

theorem over_none (v : Value) : Value.over none v = v := by
  cases v <;> rfl

theorem not_mem_append_bind (hk : k ∉ t.keys) (new : ∀ l ∈ t.keys, l ∉ a.keys) :
    ∀ l ∈ t.keys, l ∉ (a.append (bind k v .empty)).keys := by
  intro l hl
  rw [keys_append, List.mem_append, not_or, keys_bind, keys_empty, List.mem_singleton]
  refine ⟨new l hl, ?_⟩
  rintro rfl
  exact hk hl

/-- Where no name is bound in both trees, the entries of the second come behind those of the first. -/
theorem merge_of_apart (hb : b.Distinct) (new : ∀ k ∈ b.keys, k ∉ a.keys) :
    a.merge b = a.append b := by
  induction b using bind_induction generalizing a with
  | empty => exact (append_empty a).symm
  | bind k v rest _ ih =>
    obtain ⟨hk, -, hr⟩ := distinct_bind.mp hb
    rw [keys_bind, List.forall_mem_cons] at new
    have first : a.alter k (Value.over · v) = a.append (bind k v .empty) := by
      rw [alter_of_not_mem new.1, over_none]
    rw [merge_bind, first, ih hr (not_mem_append_bind hk new.2), append_assoc, append_bind]
    rfl

theorem empty_merge (hb : b.Distinct) : empty.merge b = b :=
  merge_of_apart hb fun _ _ => by simp [keys_empty]

/-- Over anything that is no node comes a node as it is, as over an empty one. -/
theorem over_node (hu : u.Distinct) (old : Option Value) :
    Value.over old (.node u) = .node ((Value.tree old).merge u) := by
  match old with
  | none => exact congrArg Value.node (empty_merge hu).symm
  | some (.leaf x) => exact congrArg Value.node (empty_merge hu).symm
  | some (.node s) => rfl

theorem get?_merge (hb : b.Distinct) (a : Tree) (k : String) : (a.merge b).get? k =
    match b.get? k with
    | some v => some (v.over (a.get? k))
    | none => a.get? k := by
  induction b using bind_induction generalizing a with
  | empty => rfl
  | bind l v rest _ ih =>
    obtain ⟨hl, -, hr⟩ := distinct_bind.mp hb
    rw [merge_bind, ih hr, get?_alter, get?_bind]
    by_cases h : l = k
    · subst h
      simp [get?_eq_none hl]
    · simp [h]

theorem Distinct.nodeAt? (hd : t.Distinct) (h : t.nodeAt? p = some u) : u.Distinct := by
  induction p generalizing t with
  | nil => exact Option.some.inj h ▸ hd
  | cons k p ih =>
    obtain ⟨v, hv, hu⟩ := nodeAt?_cons k p t h
    have inner := hd.tree k
    rw [hv] at inner
    exact ih inner hu

/-- What the second tree binds at a path comes over what the first one binds there. Where it binds
nothing the first one is left as it is, unless a leaf of the second is in the way. -/
theorem getPath?_merge (hb : b.Distinct) (a : Tree) (p : List String) : (a.merge b).getPath? p =
    match b.getPath? p with
    | some v => some (v.over (a.getPath? p))
    | none => if b.collision? p = none then a.getPath? p else none := by
  induction p generalizing a b with
  | nil => rfl
  | cons k p ih =>
    by_cases hp : p = []
    · subst hp
      rw [getPath?_singleton, getPath?_singleton, getPath?_singleton, get?_merge hb]
      cases h : b.get? k with
      | none => simp [collision?, h, Value.isLeaf]
      | some v => rfl
    · rw [getPath?_cons hp, getPath?_cons hp, getPath?_cons hp, get?_merge hb, collision?]
      cases h : b.get? k with
      | none => simp [Value.tree, Value.isLeaf, collision?_empty]
      | some v =>
        cases v with
        | leaf x => simp [Value.over, Value.tree, Value.isLeaf]
        | node u =>
          have inner : u.Distinct := by
            have hd := hb.tree k
            rwa [h] at hd
          simp [over_node inner, Value.tree, Value.isLeaf, ih inner]

theorem keys_merge (hb : b.Distinct) (a : Tree) :
    (a.merge b).keys = a.keys ++ b.keys.filter (· ∉ a.keys) := by
  induction b using bind_induction generalizing a with
  | empty => simp [keys_empty]
  | bind k v rest _ ih =>
    obtain ⟨hk, -, hr⟩ := distinct_bind.mp hb
    rw [merge_bind, ih hr, keys_alter, keys_bind]
    by_cases hm : k ∈ a.keys
    · simp [hm]
    · have others : rest.keys.filter (· ∉ a.keys ++ [k]) = rest.keys.filter (· ∉ a.keys) := by
        refine List.filter_congr fun l hl => ?_
        have hne : l ≠ k := by
          rintro rfl
          exact hk hl
        simp [hne]
      rw [if_neg hm, others, List.filter_cons_of_pos (by simpa using hm), List.append_assoc]
      rfl

theorem alter_eq_self {g : Option Value → Value} (h : t.get? k = some v) (hg : g (some v) = v) :
    t.alter k g = t := by
  induction t using bind_induction with
  | empty => simp [get?] at h
  | bind l w rest _ ih =>
    rw [get?_bind] at h
    by_cases hl : l = k
    · rw [if_pos hl, Option.some.injEq] at h
      rw [hl, alter_bind, h, hg]
    · rw [if_neg hl] at h
      rw [alter_bind_of_ne hl, ih h]

theorem merge_again (hb : b.Distinct) (a : Tree) : (a.merge b).merge b = a.merge b := by
  induction b using bind_induction generalizing a with
  | empty => rfl
  | bind k v rest ihv ih =>
    obtain ⟨hk, hv, hr⟩ := distinct_bind.mp hb
    have twice (old : Option Value) : Value.over (some (Value.over old v)) v = Value.over old v := by
      cases v with
      | leaf x => rfl
      | node u =>
        have hu := hv u rfl
        rw [over_node hu, over_node hu, Value.tree, ihv u rfl hu]
    have there : ((a.alter k (Value.over · v)).merge rest).get? k =
        some (Value.over (a.get? k) v) := by
      rw [get?_merge hr, get?_eq_none hk, get?_alter, if_pos rfl]
    rw [merge_bind, merge_bind, alter_eq_self there (twice _), ih hr]

theorem nodeAt?_merge (hb : b.Distinct) (hs : a.nodeAt? p = some s) (hu : b.nodeAt? p = some u) :
    (a.merge b).nodeAt? p = some (s.merge u) := by
  by_cases hp : p = []
  · subst hp
    rw [← Option.some.inj hs, ← Option.some.inj hu]
    rfl
  · rw [nodeAt?_eq_some_iff hp] at hs hu ⊢
    rw [getPath?_merge hb, hs, hu]
    rfl

/-- What a tree `m` is to two trees of which the second was merged into the first. -/
structure Merged (a b m : Tree) : Prop where
  leaf : ∀ p x, m.getPath? p = some (.leaf x) ↔
    b.getPath? p = some (.leaf x) ∨
      a.getPath? p = some (.leaf x) ∧ b.getPath? p = none ∧
        ∀ q, q <+: p → q ≠ p → ∀ y, b.getPath? q ≠ some (.leaf y)
  node : ∀ p, (∃ w, m.getPath? p = some (.node w)) ↔
    (∃ w, b.getPath? p = some (.node w)) ∨
      (∃ w, a.getPath? p = some (.node w)) ∧ ∀ q, q <+: p → ∀ y, b.getPath? q ≠ some (.leaf y)
  /-- Where two nodes merged the names of the first keep their order, and new ones come behind them. -/
  keys : ∀ p s u, a.nodeAt? p = some s → b.nodeAt? p = some u → ∃ w, m.nodeAt? p = some w ∧
    w.keys = s.keys ++ u.keys.filter (· ∉ s.keys)
  again : m.merge b = m

theorem exists_over_node (old : Option Value) (u : Tree) : ∃ w, Value.over old (.node u) = .node w := by
  match old with
  | none => exact ⟨u, rfl⟩
  | some (.leaf x) => exact ⟨u, rfl⟩
  | some (.node s) => exact ⟨s.merge u, rfl⟩

/-- Where nothing is bound, only leaves at proper starts of the path are in the way. -/
theorem collision?_eq_none_of_unbound (h : t.getPath? p = none) :
    t.collision? p = none ↔ ∀ q, q <+: p → q ≠ p → ∀ y, t.getPath? q ≠ some (.leaf y) := by
  rw [collision?_eq_none_iff]
  refine ⟨fun none q hq _ => none q hq, fun proper q hq => ?_⟩
  by_cases hqp : q = p
  · simp [hqp, h]
  · exact proper q hq hqp

theorem merged_merge (hb : b.Distinct) (a : Tree) : Merged a b (a.merge b) where
  leaf := by
    intro p x
    rw [getPath?_merge hb]
    match h : b.getPath? p with
    | some (.leaf y) => simp [Value.over]
    | some (.node u) =>
      obtain ⟨w, hw⟩ := exists_over_node (a.getPath? p) u
      simp [hw]
    | none =>
      rw [← collision?_eq_none_of_unbound h]
      by_cases hc : b.collision? p = none <;> simp [hc]
  node := by
    intro p
    rw [getPath?_merge hb, ← collision?_eq_none_iff]
    match h : b.getPath? p with
    | some (.leaf y) =>
      have met : b.collision? p ≠ none := fun hc =>
        collision?_eq_none_iff.mp hc p List.prefix_rfl y h
      simp [Value.over, met]
    | some (.node u) =>
      obtain ⟨w, hw⟩ := exists_over_node (a.getPath? p) u
      simp [hw]
    | none => by_cases hc : b.collision? p = none <;> simp [hc]
  keys := fun p s u hs hu =>
    ⟨s.merge u, nodeAt?_merge hb hs hu, keys_merge (hb.nodeAt? hu) s⟩
  again := merge_again hb a

end Tree

end StyleExports
