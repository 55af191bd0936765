import StyleExports.Proofs.Text.FirstUse
import StyleExports.Proofs.Tree.Merge

namespace StyleExports

namespace Tree

/-- Insert the entries of a tree that is written into one that is there already, nodes as they are read. -/
def collect (t : Tree) : Tree → Tree
  | .empty => t
  | .leaf k x rest => (t.insert k (.leaf x)).collect rest
  | .node k u rest => (t.insert k (.node (empty.collect u))).collect rest

/-- The tree that is read where this one is written. -/
def collected (t : Tree) : Tree := empty.collect t

end Tree

namespace Value

def collected : Value → Value
  | .leaf x => .leaf x
  | .node u => .node u.collected

/-- The number of nodes around the deepest binding in a value. -/
def depth : Value → Nat
  | .leaf _ => 0
  | .node u => u.depth + 1

end Value

namespace Tree

variable {a t u : Tree} {k : String} {v : Value}

theorem collect_bind (a : Tree) (k : String) (v : Value) (rest : Tree) :
    a.collect (bind k v rest) = (a.insert k v.collected).collect rest := by
  cases v <;> rfl

theorem collect_eq_insertAll (a u : Tree) :
    a.collect u = a.insertAll (u.entries.map fun e => (e.1, e.2.collected)) := by
  induction u using bind_induction generalizing a with
  | empty => rfl
  | bind k v rest _ ih =>
    rw [collect_bind, ih, entries_bind]
    rfl

theorem keys_ofList (es : List (String × Value)) :
    (ofList es).keys = (es.map (·.1)).eraseDups := by
  induction es using List.reverseRecOn with
  | nil => rfl
  | append_singleton es e ih =>
    have last : ofList (es ++ [e]) = (ofList es).insert e.1 e.2 := by
      rw [ofList, insertAll, List.foldl_append]
      rfl
    rw [last, insert, keys_alter, ih, List.map_append, List.map_singleton]
    split
    · rename_i h
      rw [Text.eraseDups_concat_of_mem (List.mem_eraseDups.mp h)]
    · rename_i h
      rw [Text.eraseDups_concat_of_not_mem (fun hm => h (List.mem_eraseDups.mpr hm))]

theorem keys_collected (u : Tree) : u.collected.keys = u.keys.eraseDups := by
  have names := keys_ofList (u.entries.map fun e => (e.1, e.2.collected))
  rw [List.map_map] at names
  rw [collected, collect_eq_insertAll]
  exact names

/-- Of the values of a name the last one counts. -/
theorem get?_collected (u : Tree) (k : String) : u.collected.get? k =
    ((u.entries.filter (·.1 = k)).getLast?).map (·.2.collected) := by
  rw [collected, collect_eq_insertAll, get?_insertAll, List.filter_map, List.getLast?_map,
    Option.map_map]
  exact Option.or_none

theorem distinct_insert (ht : t.Distinct) (hv : ∀ u, v = .node u → u.Distinct) :
    (t.insert k v).Distinct := by
  induction t using bind_induction with
  | empty => exact distinct_bind.mpr ⟨by simp [keys_empty], hv, trivial⟩
  | bind l w rest _ ih =>
    obtain ⟨hl, hw, hr⟩ := distinct_bind.mp ht
    by_cases h : l = k
    · rw [insert, h, alter_bind]
      exact distinct_bind.mpr ⟨h ▸ hl, hv, hr⟩
    · have names : l ∉ (rest.insert k v).keys := by
        rw [insert, keys_alter]
        split
        · exact hl
        · simp [hl, h]
      rw [insert, alter_bind_of_ne h]
      exact distinct_bind.mpr ⟨names, hw, ih hr⟩

theorem distinct_collect (ha : a.Distinct) : (a.collect u).Distinct := by
  induction u using bind_induction generalizing a with
  | empty => exact ha
  | bind k v rest ihv ih =>
    rw [collect_bind]
    refine ih (distinct_insert ha ?_)
    intro w hw
    cases v with
    | leaf x => simp [Value.collected] at hw
    | node u => exact Value.node.inj hw ▸ ihv u rfl (a := .empty) trivial

theorem depth_bind (k : String) (v : Value) (t : Tree) :
    (bind k v t).depth = max v.depth t.depth := by
  cases v <;> simp [bind, depth, Value.depth]

theorem depth_pos (t : Tree) : 0 < t.depth := by
  induction t with
  | empty => exact Nat.one_pos
  | leaf _ _ _ ih => exact ih
  | node _ u rest _ ih =>
    rw [depth]
    omega

theorem depth_insert (t : Tree) (k : String) (v : Value) :
    (t.insert k v).depth ≤ max t.depth v.depth := by
  induction t using bind_induction with
  | empty =>
    have alone : Tree.empty.insert k v = bind k v .empty := rfl
    rw [alone, depth_bind]
    omega
  | bind l w rest _ ih =>
    rw [insert] at ih ⊢
    by_cases h : l = k
    · rw [h, alter_bind, depth_bind, depth_bind]
      omega
    · rw [alter_bind_of_ne h, depth_bind, depth_bind]
      omega

theorem depth_collect (a u : Tree) : (a.collect u).depth ≤ max a.depth u.depth := by
  induction u using bind_induction generalizing a with
  | empty => exact Nat.le_max_left _ _
  | bind k v rest ihv ih =>
    have value : v.collected.depth ≤ v.depth := by
      cases v with
      | leaf x => exact Nat.le_refl _
      | node u =>
        have inner := ihv u rfl .empty
        have := u.depth_pos
        have one : Tree.empty.depth = 1 := rfl
        rw [Value.collected, Value.depth, Value.depth, collected]
        omega
    have first := depth_insert a k v.collected
    have rest := ih (a.insert k v.collected)
    rw [collect_bind, depth_bind]
    omega

/-- Where no name is repeated the entries come as they are written. -/
theorem collect_of_apart (hu : u.Distinct) (new : ∀ k ∈ u.keys, k ∉ a.keys) :
    a.collect u = a.append u := by
  induction u using bind_induction generalizing a with
  | empty => exact (append_empty a).symm
  | bind k v rest ihv ih =>
    obtain ⟨hk, hv, hr⟩ := distinct_bind.mp hu
    rw [keys_bind, List.forall_mem_cons] at new
    have value : v.collected = v := by
      cases v with
      | leaf x => rfl
      | node w => exact congrArg Value.node (ihv w rfl (a := .empty) (hv w rfl) (by simp [keys_empty]))
    have first : a.insert k v = a.append (bind k v .empty) := alter_of_not_mem new.1 _
    rw [collect_bind, value, first, ih hr (not_mem_append_bind hk new.2), append_assoc, append_bind]
    rfl

theorem collected_of_distinct (hu : u.Distinct) : u.collected = u :=
  collect_of_apart hu fun _ _ => by simp [keys_empty]

end Tree

end StyleExports
