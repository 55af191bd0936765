import StyleExports.Yaml.Node

namespace StyleExports.Yaml

structure Anchors where
  /-- The number that each name stands for. -/
  names : List (List Char × Nat)
  /-- The event at which the node with each number begins. -/
  places : List (Nat × Nat)

namespace Anchors

def empty : Anchors := ⟨[], []⟩

/-- Name the node that begins at an event. Its number is the number of names before. A name may
be given again, and of several nodes with a number the last has it. -/
def add (name : Option (List Char)) (place : Nat) (x : Anchors) : Anchors :=
  match name with
  | none => x
  | some name =>
    let n := x.names.length
    ⟨(name, n) :: x.names.filter (·.1 != name), (n, place) :: x.places⟩

end Anchors

/-- Exchange the names of aliases for the numbers of their nodes, from the event with a number on.
An alias without an anchor before it stands for nothing. -/
def link? : Nat → Anchors → List NamedEvent → Option (List (Event Nat) × Anchors)
  | _, x, [] => some ([], x)
  | n, x, e :: es =>
    match e with
    | .reference name =>
      match x.names.lookup name with
      | none => none
      | some a => (link? (n + 1) x es).map fun (es, x) => (.reference a :: es, x)
    | .scalar anchor s =>
      (link? (n + 1) (x.add anchor n) es).map fun (es, x) => (.scalar anchor s :: es, x)
    | .listStart anchor tag =>
      (link? (n + 1) (x.add anchor n) es).map fun (es, x) => (.listStart anchor tag :: es, x)
    | .mapStart anchor tag =>
      (link? (n + 1) (x.add anchor n) es).map fun (es, x) => (.mapStart anchor tag :: es, x)
    | .listEnd => (link? (n + 1) x es).map fun (es, x) => (.listEnd :: es, x)
    | .mapEnd => (link? (n + 1) x es).map fun (es, x) => (.mapEnd :: es, x)

structure Document where
  events : List (Event Nat)
  places : List (Nat × Nat)

namespace Document

def ofEvents? (es : List NamedEvent) : Option Document :=
  (link? 0 .empty es).map fun (es, x) => ⟨es, x.places⟩

def ofText? (s : List Char) : Option Document := do
  let ts ← tokens? s
  let es ← onlyDocument? ts
  ofEvents? es

def root? (d : Document) : Option (Node Nat) := (Nodes.ofEvents d.events).toList.head?

def node? (d : Document) (n : Nat) : Option (Node Nat) :=
  match d.places.lookup n with
  | none => none
  | some place => (Nodes.ofEvents (d.events.drop place)).toList.head?

def aliasBound (d : Document) : Nat := 100 * d.events.length

def depthBound : Nat := 128

/-- Put the nodes that they stand for in the place of aliases, of which `left` may still be
followed; `inner` does so inside lists and maps. -/
def resolveWith (d : Document) (inner : Nodes Nat → Nat → Option (Nodes Empty × Nat)) :
    Nodes Nat → Nat → Option (Nodes Empty × Nat)
  | .none, left => some (.none, left)
  | .scalar s rest, left =>
    (resolveWith d inner rest left).map fun (rest, left) => (.scalar s rest, left)
  | .list tag items rest, left => do
    let (items, left) ← inner items left
    let (rest, left) ← resolveWith d inner rest left
    return (.list tag items rest, left)
  | .map tag entries rest, left => do
    let (entries, left) ← inner entries left
    let (rest, left) ← resolveWith d inner rest left
    return (.map tag entries rest, left)
  | .reference _ _, 0 => none
  | .reference a rest, left + 1 => do
    match ← d.node? a with
    | .scalar s =>
      let (rest, left) ← resolveWith d inner rest left
      return (.scalar s rest, left)
    | .list tag items =>
      let (items, left) ← inner items left
      let (rest, left) ← resolveWith d inner rest left
      return (.list tag items rest, left)
    | .map tag entries =>
      let (entries, left) ← inner entries left
      let (rest, left) ← resolveWith d inner rest left
      return (.map tag entries rest, left)
    | .reference _ => none

/-- Put the nodes that they stand for in the place of aliases, of which `left` may still be
followed. Lists and maps may be entered to the given depth. -/
def resolve? (d : Document) : Nat → Nodes Nat → Nat → Option (Nodes Empty × Nat)
  | 0 => resolveWith d fun _ _ => none
  | depth + 1 => resolveWith d (resolve? d depth)

def key? (d : Document) (k : Node Nat) (left : Nat) : Option (List Char × Nat) :=
  match (resolveWith d (fun _ _ => none) k.alone left) with
  | some (.scalar s _, left) => some (s.text, left)
  | _ => none

/-- The fields with known names among the entries of a map. The values of other fields are not
looked at. -/
def fieldsOf? (d : Document) (known : List Char → Bool) :
    List (Node Nat × Node Nat) → Nat → Option (List (List Char × Node Empty))
  | [], _ => some []
  | (k, v) :: es, left => do
    let (name, left) ← d.key? k left
    if known name then
      let (v, left) ← d.resolve? (depthBound - 1) v.alone left
      let v ← v.toList.head?
      let fs ← fieldsOf? d known es left
      return (name, v) :: fs
    else fieldsOf? d known es left

/-- The fields with known names of a document that is a map. A document without a node, or with
an empty one, has no fields. -/
def fields? (d : Document) (known : List Char → Bool) : Option (List (List Char × Node Empty)) :=
  match d.root? with
  | none => some []
  | some (.scalar s) => if s.style = .plain ∧ s.text = [] then some [] else none
  | some (.map _ entries) => d.fieldsOf? known entries.pairs d.aliasBound
  | some _ => none

end Document

end StyleExports.Yaml
