namespace StyleExports

/-- An ordered tree: empty, or a first entry (leaf or node) and the entries after it. -/
inductive Tree where
  | empty
  | leaf (key text : String) (rest : Tree)
  | node (key : String) (inner rest : Tree)
  deriving DecidableEq, Repr, Inhabited

inductive Value where
  | leaf (text : String)
  | node (tree : Tree)
  deriving DecidableEq, Repr, Inhabited

namespace Value

/-- The tree of a node; what is not a node has no entries. -/
def tree : Option Value → Tree
  | some (.node t) => t
  | _ => .empty

def isLeaf : Option Value → Bool
  | some (.leaf _) => true
  | _ => false

end Value

namespace Tree

def bind (key : String) : Value → Tree → Tree
  | .leaf x, rest => .leaf key x rest
  | .node u, rest => .node key u rest

def entries : Tree → List (String × Value)
  | .empty => []
  | .leaf k x rest => (k, .leaf x) :: rest.entries
  | .node k u rest => (k, .node u) :: rest.entries

@[simp] theorem entries_bind (k : String) (v : Value) (t : Tree) :
    (bind k v t).entries = (k, v) :: t.entries := by
  cases v <;> rfl

def keys (t : Tree) : List String := t.entries.map (·.1)

def count (t : Tree) : Nat := t.entries.length

def isEmpty : Tree → Bool
  | .empty => true
  | _ => false

def get? (key : String) : Tree → Option Value
  | .empty => none
  | .leaf k x rest => if k = key then some (.leaf x) else rest.get? key
  | .node k u rest => if k = key then some (.node u) else rest.get? key

/-- What stands at the end of a path of names. The empty path leads nowhere. -/
def getPath? : List String → Tree → Option Value
  | [], _ => none
  | [k], t => t.get? k
  | k :: p, t =>
    match t.get? k with
    | some (.node u) => u.getPath? p
    | _ => none

/-- The tree at the end of a path, empty where the path leads to none. -/
def subtree : List String → Tree → Tree
  | [], t => t
  | k :: p, t => (Value.tree (t.get? k)).subtree p

/-- Bind a name to what `g` makes of its binding. A bound name keeps its place, a new name comes
last. Inserting, drilling down a path and merging are made of this. -/
def alter (key : String) (g : Option Value → Value) : Tree → Tree
  | .empty => bind key (g none) .empty
  | .leaf k x rest =>
    if k = key then bind k (g (some (.leaf x))) rest else .leaf k x (rest.alter key g)
  | .node k u rest =>
    if k = key then bind k (g (some (.node u))) rest else .node k u (rest.alter key g)

@[simp] theorem get?_bind (key k : String) (v : Value) (t : Tree) :
    (bind k v t).get? key = if k = key then some v else t.get? key := by
  cases v <;> rfl

theorem get?_alter (key k : String) (g : Option Value → Value) (t : Tree) :
    (t.alter k g).get? key = if k = key then some (g (t.get? k)) else t.get? key := by
  induction t with
  | empty => simp [alter, get?]
  | leaf k' x rest ih =>
    by_cases h : k' = k
    · subst h
      by_cases hk : k' = key <;> simp [alter, get?, hk]
    · by_cases hk : k' = key
      · subst hk
        simp [alter, get?, h, Ne.symm h]
      · simp [alter, get?, h, hk, ih]
  | node k' u rest _ ih =>
    by_cases h : k' = k
    · subst h
      by_cases hk : k' = key <;> simp [alter, get?, hk]
    · by_cases hk : k' = key
      · subst hk
        simp [alter, get?, h, Ne.symm h]
      · simp [alter, get?, h, hk, ih]

theorem keys_alter (k : String) (g : Option Value → Value) (t : Tree) :
    (t.alter k g).keys = if k ∈ t.keys then t.keys else t.keys ++ [k] := by
  induction t with
  | empty => simp [alter, keys, entries]
  | leaf k' x rest ih =>
    simp only [keys] at ih ⊢
    by_cases h : k' = k
    · subst h
      simp [alter, entries]
    · by_cases hm : k ∈ rest.entries.map (·.1) <;> simp_all [alter, entries, Ne.symm h]
  | node k' u rest _ ih =>
    simp only [keys] at ih ⊢
    by_cases h : k' = k
    · subst h
      simp [alter, entries]
    · by_cases hm : k ∈ rest.entries.map (·.1) <;> simp_all [alter, entries, Ne.symm h]

def insert (t : Tree) (key : String) (v : Value) : Tree := t.alter key fun _ => v

def insertAll (t : Tree) (es : List (String × Value)) : Tree :=
  es.foldl (fun t e => t.insert e.1 e.2) t

def ofList (es : List (String × Value)) : Tree := empty.insertAll es

/-- Walk down a path, making a node of whatever stands in the way, and change the tree at its
end by `f`. -/
def drill (f : Tree → Tree) : List String → Tree → Tree
  | [], t => f t
  | k :: p, t => t.alter k fun v => .node (drill f p (Value.tree v))

/-- The number of the segment at which a path meets a leaf, if it meets one. Below that segment
every node is new, so no path meets two. -/
def collision? : List String → Tree → Option Nat
  | [], _ => none
  | k :: p, t =>
    if Value.isLeaf (t.get? k) then some 0
    else (collision? p (Value.tree (t.get? k))).map (· + 1)

/-- Merge a tree into another: nodes on both sides merge, any other binding comes from the
second. -/
def merge (t : Tree) : Tree → Tree
  | .empty => t
  | .leaf k x rest => (t.insert k (.leaf x)).merge rest
  | .node k u rest =>
    (t.alter k fun
      | some (.node s) => .node (s.merge u)
      | _ => .node u).merge rest

@[simp] theorem merge_empty (t : Tree) : t.merge .empty = t := rfl

/-- No name is bound twice, at any depth. -/
def Distinct : Tree → Prop
  | .empty => True
  | .leaf k _ rest => k ∉ rest.keys ∧ rest.Distinct
  | .node k u rest => k ∉ rest.keys ∧ u.Distinct ∧ rest.Distinct

/-- The number of nodes around the deepest binding, this tree included. -/
def depth : Tree → Nat
  | .empty => 1
  | .leaf _ _ rest => rest.depth
  | .node _ u rest => max (u.depth + 1) rest.depth

end Tree

end StyleExports
