import StyleExports.Proofs.Tree.Drill

namespace StyleExports

namespace Tree

def append : Tree → Tree → Tree
  | .empty, u => u
  | .leaf k x rest, u => .leaf k x (rest.append u)
  | .node k v rest, u => .node k v (rest.append u)

def leaves : Tree → List (String × String)
  | .empty => []
  | .leaf k x rest => (k, x) :: rest.leaves
  | .node _ _ rest => rest.leaves

def leavesOnly : Tree → Tree
  | .empty => .empty
  | .leaf k x rest => .leaf k x rest.leavesOnly
  | .node _ _ rest => rest.leavesOnly

/-- The tree without its leaves; in its nodes the leaves come first. -/
def nodesOnly : Tree → Tree
  | .empty => .empty
  | .leaf _ _ rest => rest.nodesOnly
  | .node k u rest => .node k (u.leavesOnly.append u.nodesOnly) rest.nodesOnly

/-- The tree with the leaves in front of the nodes, at any depth. -/
def leavesFirst (t : Tree) : Tree := t.leavesOnly.append t.nodesOnly

def insertLeaves (t : Tree) (es : List (String × String)) : Tree :=
  t.insertAll (es.map fun e => (e.1, .leaf e.2))

def decidableDistinct : (t : Tree) → Decidable t.Distinct
  | .empty => inferInstanceAs (Decidable True)
  | .leaf k _ rest =>
    have := decidableDistinct rest
    inferInstanceAs (Decidable (k ∉ rest.keys ∧ rest.Distinct))
  | .node k u rest =>
    have := decidableDistinct u
    have := decidableDistinct rest
    inferInstanceAs (Decidable (k ∉ rest.keys ∧ u.Distinct ∧ rest.Distinct))

instance : DecidablePred Distinct := decidableDistinct

/-- A node apart from the nodes in it: the path to it, and its leaves. -/
@[ext] structure Node where
  path : List String
  leaves : List (String × String)
  deriving DecidableEq, Repr

/-- The nodes below the end of a path, each before those in it. -/
def nodesBelow (path : List String) : Tree → List Node
  | .empty => []
  | .leaf _ _ rest => rest.nodesBelow path
  | .node k u rest => ⟨path ++ [k], u.leaves⟩ :: (u.nodesBelow (path ++ [k]) ++ rest.nodesBelow path)

/-- The nodes of a tree in pre-order, itself the first. -/
def nodes (t : Tree) : List Node := ⟨[], t.leaves⟩ :: t.nodesBelow []

namespace Node

def write (n : Node) (t : Tree) : Tree := t.drill (·.insertLeaves n.leaves) n.path

def writeAll (ns : List Node) (t : Tree) : Tree := ns.foldl (fun t n => n.write t) t

/-- Whether no path meets a leaf while nodes are written one after the other. -/
def Clear : List Node → Tree → Prop
  | [], _ => True
  | n :: ns, t => t.collision? n.path = none ∧ Clear ns (n.write t)

theorem writeAll_append (ns ms : List Node) (t : Tree) :
    writeAll (ns ++ ms) t = writeAll ms (writeAll ns t) := List.foldl_append

theorem clear_append {ns ms : List Node} {t : Tree} :
    Clear (ns ++ ms) t ↔ Clear ns t ∧ Clear ms (writeAll ns t) := by
  induction ns generalizing t with
  | nil => simp [Clear, writeAll]
  | cons n ns ih =>
    rw [List.cons_append, Clear, Clear, ih, and_assoc]
    rfl

end Node

section

variable {s t u : Tree} {k : String}

theorem append_empty (t : Tree) : t.append .empty = t := by
  induction t with
  | empty => rfl
  | leaf k x rest ih => rw [append, ih]
  | node k u rest _ ih => rw [append, ih]

theorem append_assoc (s t u : Tree) : (s.append t).append u = s.append (t.append u) := by
  induction s with
  | empty => rfl
  | leaf k x rest ih => rw [append, append, ih, append]
  | node k v rest _ ih => rw [append, append, ih, append]

theorem entries_append (t u : Tree) : (t.append u).entries = t.entries ++ u.entries := by
  induction t with
  | empty => rfl
  | leaf k x rest ih => rw [append, entries, ih, entries, List.cons_append]
  | node k v rest _ ih => rw [append, entries, ih, entries, List.cons_append]

theorem keys_append (t u : Tree) : (t.append u).keys = t.keys ++ u.keys := by
  rw [keys, entries_append, List.map_append]
  rfl

theorem get?_append (t u : Tree) (k : String) :
    (t.append u).get? k = (t.get? k).or (u.get? k) := by
  induction t with
  | empty => rfl
  | leaf l x rest ih =>
    rw [append, get?, get?]
    split
    · rfl
    · exact ih
  | node l v rest _ ih =>
    rw [append, get?, get?]
    split
    · rfl
    · exact ih

theorem alter_of_not_mem (hk : k ∉ t.keys) (g : Option Value → Value) :
    t.alter k g = t.append (bind k (g none) .empty) := by
  induction t with
  | empty => rfl
  | leaf l x rest ih =>
    rw [keys, entries, List.map_cons, List.mem_cons, not_or] at hk
    rw [alter, if_neg (Ne.symm hk.1), ih hk.2, append]
  | node l u rest _ ih =>
    rw [keys, entries, List.map_cons, List.mem_cons, not_or] at hk
    rw [alter, if_neg (Ne.symm hk.1), ih hk.2, append]

theorem keys_empty : empty.keys = [] := rfl

theorem keys_leaf (k x : String) (t : Tree) : (leaf k x t).keys = k :: t.keys := rfl

theorem keys_node (k : String) (u t : Tree) : (node k u t).keys = k :: t.keys := rfl

theorem mem_keys (t : Tree) (k : String) :
    k ∈ t.keys ↔ k ∈ t.leavesOnly.keys ∨ k ∈ t.nodesOnly.keys := by
  induction t with
  | empty => simp [leavesOnly, nodesOnly, keys_empty]
  | leaf l x rest ih =>
    rw [keys_leaf, leavesOnly, nodesOnly, keys_leaf, List.mem_cons, List.mem_cons, ih, or_assoc]
  | node l u rest _ ih =>
    rw [keys_node, leavesOnly, nodesOnly, keys_node, List.mem_cons, List.mem_cons, ih]
    exact or_left_comm

theorem Distinct.apart (hd : t.Distinct) (hk : k ∈ t.nodesOnly.keys) : k ∉ t.leavesOnly.keys := by
  induction t with
  | empty => simp [nodesOnly, keys_empty] at hk
  | leaf l x rest ih =>
    rw [nodesOnly] at hk
    rw [leavesOnly, keys_leaf, List.mem_cons, not_or]
    refine ⟨?_, ih hd.2 hk⟩
    rintro rfl
    exact hd.1 ((mem_keys rest k).mpr (.inr hk))
  | node l u rest _ ih =>
    rw [nodesOnly, keys_node, List.mem_cons] at hk
    rw [leavesOnly]
    rcases hk with rfl | hk
    · intro hl
      exact hd.1 ((mem_keys rest k).mpr (.inl hl))
    · exact ih hd.2.2 hk

theorem insertLeaves_leaves (hd : u.Distinct) (new : ∀ k ∈ u.leavesOnly.keys, k ∉ s.keys) :
    s.insertLeaves u.leaves = s.append u.leavesOnly := by
  induction u generalizing s with
  | empty => exact (append_empty s).symm
  | leaf k x rest ih =>
    rw [leavesOnly, keys_leaf, List.forall_mem_cons] at new
    have first : s.insert k (.leaf x) = s.append (.leaf k x .empty) := alter_of_not_mem new.1 _
    have others : ∀ l ∈ rest.leavesOnly.keys, l ∉ (s.append (.leaf k x .empty)).keys := by
      intro l hl
      rw [keys_append, List.mem_append, not_or]
      refine ⟨new.2 l hl, ?_⟩
      rw [keys_leaf, keys_empty, List.mem_singleton]
      rintro rfl
      exact hd.1 ((mem_keys rest l).mpr (.inl hl))
    have next := ih hd.2 others
    rw [append_assoc, ← first] at next
    exact next
  | node k v rest _ ih => exact ih hd.2.2 new

theorem insertLeaves_empty (hd : u.Distinct) : Tree.insertLeaves .empty u.leaves = u.leavesOnly :=
  insertLeaves_leaves hd fun _ _ => by simp [keys_empty]

theorem drill_of_not_mem (hk : k ∉ s.keys) (f : Tree → Tree) :
    s.drill f [k] = s.append (.node k (f .empty) .empty) := alter_of_not_mem hk _

/-- Add the leaves of a tree, then its nodes. -/
def fill (u s : Tree) : Tree := (s.insertLeaves u.leaves).append u.nodesOnly

theorem fill_empty (hd : u.Distinct) : u.fill .empty = u.leavesFirst :=
  congrArg (append · _) (insertLeaves_empty hd)

/-- Writing the nodes in a tree where a path was drilled adds them at the end of the path, and
no leaf is in the way. -/
theorem writeAll_nodesBelow {f : Tree → Tree} {p : List String} (hd : u.Distinct)
    (new : ∀ k ∈ u.nodesOnly.keys, k ∉ (f (t.subtree p)).keys) :
    Node.Clear (u.nodesBelow p) (t.drill f p) ∧
      Node.writeAll (u.nodesBelow p) (t.drill f p) =
        t.drill (fun s => (f s).append u.nodesOnly) p := by
  induction u generalizing t f p with
  | empty =>
    have same := drill_congr (t := t) (p := p) (f := f) (g := fun s => (f s).append .empty)
      (append_empty _).symm
    exact ⟨trivial, same⟩
  | leaf k x rest ih => exact ih hd.2 new
  | node k v rest ihv ihr =>
    obtain ⟨apart, dv, dr⟩ := hd
    rw [nodesOnly, keys_node, List.forall_mem_cons] at new
    obtain ⟨fresh, others⟩ := new
    have nothing : (f (t.subtree p)).get? k = none := get?_eq_none fresh
    have meets : (t.drill f p).collision? (p ++ [k]) = none := by
      rw [collision?_append, subtree_drill, collision?, nothing]
      exact ⟨collision?_drill f p t, rfl⟩
    have there : (t.drill f p).subtree (p ++ [k]) = .empty := by
      rw [subtree_append, subtree_drill, subtree, nothing]
      rfl
    -- the node gets its leaves, then the nodes in it
    have inside := ihv (t := t.drill f p) (p := p ++ [k]) (f := (·.insertLeaves v.leaves)) dv (by
      rw [there, insertLeaves_empty dv]
      exact fun j hj => dv.apart hj)
    have whole : (t.drill f p).drill v.fill (p ++ [k]) =
        t.drill (fun s => (f s).drill v.fill [k]) p := by
      rw [drill_append, drill_drill]
    have last : (f (t.subtree p)).drill v.fill [k] =
        (f (t.subtree p)).append (.node k v.leavesFirst .empty) := by
      rw [drill_of_not_mem fresh, fill_empty dv]
    -- the nodes beside it find the path drilled again, with one more name at its end
    have beside := ihr (t := t) (p := p) (f := fun s => (f s).drill v.fill [k]) dr (by
      intro j hj
      rw [last, keys_append, List.mem_append, not_or]
      refine ⟨others j hj, ?_⟩
      rw [keys_node, keys_empty, List.mem_singleton]
      rintro rfl
      exact apart ((mem_keys rest j).mpr (.inr hj)))
    change _ ∧ _ = (t.drill f p).drill v.fill (p ++ [k]) at inside
    rw [← whole, ← inside.2] at beside
    refine ⟨⟨meets, Node.clear_append.mpr ⟨inside.1, beside.1⟩⟩, ?_⟩
    have all := Node.writeAll_append (v.nodesBelow (p ++ [k])) (rest.nodesBelow p)
      ((t.drill f p).drill (·.insertLeaves v.leaves) (p ++ [k]))
    rw [beside.2] at all
    refine all.trans (drill_congr ?_)
    rw [last, append_assoc]
    rfl

/-- Written in pre-order into an empty tree, the nodes of a tree build it, leaves first, and on the
way no path meets a leaf. -/
theorem writeAll_nodes (hd : t.Distinct) :
    Node.Clear t.nodes .empty ∧ Node.writeAll t.nodes .empty = t.leavesFirst := by
  have inside := writeAll_nodesBelow (t := .empty) (f := fun _ => t.leavesOnly) (p := []) hd
    fun _ hk => hd.apart hk
  change Node.Clear (t.nodesBelow []) t.leavesOnly ∧
    Node.writeAll (t.nodesBelow []) t.leavesOnly = _ at inside
  rw [← insertLeaves_empty hd] at inside
  exact ⟨⟨rfl, inside.1⟩, inside.2.trans (fill_empty hd)⟩

end

end Tree

/-- What a name is bound to, the inside of nodes aside: a text, or none if it is a node. -/
def Value.face : Value → Option String
  | .leaf x => some x
  | .node _ => none

def Value.leavesFirst : Value → Value
  | .leaf x => .leaf x
  | .node t => .node t.leavesFirst

namespace Tree

variable {t u : Tree} {k : String}

/-- The same tree as a map of maps: every path leads to the same in both. -/
def Same (t u : Tree) : Prop :=
  ∀ p, (t.getPath? p).map Value.face = (u.getPath? p).map Value.face

theorem Distinct.tree (hd : t.Distinct) (k : String) : (Value.tree (t.get? k)).Distinct := by
  induction t with
  | empty => trivial
  | leaf l x rest ih =>
    rw [get?]
    split
    · trivial
    · exact ih hd.2
  | node l v rest _ ih =>
    rw [get?]
    split
    · exact hd.2.1
    · exact ih hd.2.2

theorem get?_leavesFirst (hd : t.Distinct) (k : String) :
    t.leavesFirst.get? k = (t.get? k).map Value.leavesFirst := by
  rw [leavesFirst, get?_append]
  induction t with
  | empty => rfl
  | leaf l x rest ih =>
    rw [leavesOnly, nodesOnly, get?, get?]
    split
    · rfl
    · exact ih hd.2
  | node l v rest _ ih =>
    rw [leavesOnly, nodesOnly, get?, get?]
    split
    · rename_i hl
      have nothing : rest.leavesOnly.get? k = none := by
        refine get?_eq_none fun hk => hd.1 ?_
        rw [hl]
        exact (mem_keys rest k).mpr (.inl hk)
      rw [nothing]
      rfl
    · exact ih hd.2.2

theorem getPath?_leavesFirst (hd : t.Distinct) (p : List String) :
    t.leavesFirst.getPath? p = (t.getPath? p).map Value.leavesFirst := by
  induction p generalizing t with
  | nil => rfl
  | cons k p ih =>
    by_cases hp : p = []
    · subst hp
      exact get?_leavesFirst hd k
    · have inner : Value.tree ((t.get? k).map Value.leavesFirst) =
          (Value.tree (t.get? k)).leavesFirst := by
        cases t.get? k with
        | none => rfl
        | some v => cases v <;> rfl
      rw [getPath?_cons hp, getPath?_cons hp, get?_leavesFirst hd, inner, ih (hd.tree k)]

/-- The order of a tree does not matter to it as a map of maps. -/
theorem same_leavesFirst (hd : t.Distinct) : t.leavesFirst.Same t := by
  intro p
  have face (v : Value) : v.leavesFirst.face = v.face := by cases v <;> rfl
  rw [getPath?_leavesFirst hd, Option.map_map]
  exact congrArg (Option.map · _) (funext face)

end Tree

end StyleExports
