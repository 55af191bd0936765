import StyleExports.Yaml.Event

namespace StyleExports.Yaml

/-- Nodes that follow one another; aliases are given by `α`. -/
inductive Nodes (α : Type) where
  | none
  | scalar (s : Scalar) (rest : Nodes α)
  | reference (a : α) (rest : Nodes α)
  | list (tag : Option (List Char)) (items rest : Nodes α)
  | map (tag : Option (List Char)) (entries rest : Nodes α)
  deriving DecidableEq, Repr, Inhabited

inductive Node (α : Type) where
  | scalar (s : Scalar)
  | reference (a : α)
  | list (tag : Option (List Char)) (items : Nodes α)
  | map (tag : Option (List Char)) (entries : Nodes α)
  deriving DecidableEq, Repr

namespace Nodes

variable {α : Type}

/-- Add an event in front of events of which is known: the nodes up to the first end that has no
beginning among them, and the nodes after each such end. -/
def consEvent : Event α → Nodes α × List (Nodes α) → Nodes α × List (Nodes α)
  | .scalar _ s, (first, more) => (.scalar s first, more)
  | .reference a, (first, more) => (.reference a first, more)
  | .listEnd, (first, more) => (.none, first :: more)
  | .mapEnd, (first, more) => (.none, first :: more)
  | .listStart _ tag, (items, []) => (.list tag items .none, [])
  | .listStart _ tag, (items, next :: more) => (.list tag items next, more)
  | .mapStart _ tag, (entries, []) => (.map tag entries .none, [])
  | .mapStart _ tag, (entries, next :: more) => (.map tag entries next, more)

def levels : List (Event α) → Nodes α × List (Nodes α) := List.foldr consEvent (.none, [])

def ofEvents (es : List (Event α)) : Nodes α := (levels es).1

def toList : Nodes α → List (Node α)
  | .none => []
  | .scalar s rest => .scalar s :: rest.toList
  | .reference a rest => .reference a :: rest.toList
  | .list tag items rest => .list tag items :: rest.toList
  | .map tag entries rest => .map tag entries :: rest.toList

def pairs (ns : Nodes α) : List (Node α × Node α) := go ns.toList
where
  go : List (Node α) → List (Node α × Node α)
    | k :: v :: ns => (k, v) :: go ns
    | _ => []

end Nodes

def Node.alone {α : Type} : Node α → Nodes α
  | .scalar s => .scalar s .none
  | .reference a => .reference a .none
  | .list tag items => .list tag items .none
  | .map tag entries => .map tag entries .none

@[simp] theorem Node.toList_alone {α : Type} (n : Node α) : n.alone.toList = [n] := by
  cases n <;> rfl

end StyleExports.Yaml
