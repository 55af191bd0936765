import StyleExports.Text.Cut
import StyleExports.Text.Quoted
import StyleExports.Tree.Basic

namespace StyleExports.Tree

open Text

def jsonMembers : Tree → List (List Char)
  | .empty => []
  | .leaf k x rest =>
    (Quoted.encode k.toList ++ ':' :: Quoted.encode x.toList) :: rest.jsonMembers
  | .node k u rest =>
    (Quoted.encode k.toList ++ ':' :: '{' :: (join [','] u.jsonMembers ++ ['}'])) ::
      rest.jsonMembers

def jsonChars (t : Tree) : List Char := '{' :: (join [','] t.jsonMembers ++ ['}'])

def toJson (t : Tree) : String := String.ofList t.jsonChars

namespace Json

/-- The tokens that data of strings and objects consists of. -/
inductive Token where
  | opening
  | closing
  | colon
  | comma
  | text (s : List Char)
  deriving DecidableEq, Repr

/-- The four blank characters that JSON allows between tokens. -/
def isGap (c : Char) : Bool := c == ' ' || c == '\t' || c == '\n' || c == '\r'

def tokens? (s : List Char) : Option (List Token) :=
  match s with
  | [] => some []
  | c :: s =>
    if isGap c then tokens? s
    else if c = '{' then (tokens? s).map (.opening :: ·)
    else if c = '}' then (tokens? s).map (.closing :: ·)
    else if c = ':' then (tokens? s).map (.colon :: ·)
    else if c = ',' then (tokens? s).map (.comma :: ·)
    else if c = '"' then
      match _h : Quoted.decodeBody s with
      | none => none
      | some (t, r) => (tokens? r).map (.text t :: ·)
    else none
termination_by s.length
decreasing_by
  all_goals first
    | exact Nat.lt_succ_self _
    | exact Nat.lt_succ_of_lt (Quoted.length_of_decodeBody _h)

inductive Place where
  /-- Just opened: a member or the end follows. -/
  | first
  /-- After a comma: a member follows. -/
  | member
  /-- After a member: a comma or the end follows. -/
  | next
  deriving DecidableEq, Repr

def nestingLimit : Nat := 128

/-- Read the rest of an object, of which `t` is read; `outer` holds the objects around it with the
names under which the next inner one belongs, innermost first. -/
def build? : List Token → Place → Tree → List (String × Tree) → Option Tree
  | .closing :: ts, place, t, outer =>
    if place = .member then none
    else
      match outer with
      | [] => if ts.isEmpty then some t else none
      | (k, u) :: outer => build? ts .next (u.insert k (.node t)) outer
  | .comma :: ts, place, t, outer =>
    if place = .next then build? ts .member t outer else none
  | .text k :: .colon :: .text x :: ts, place, t, outer =>
    if place = .next then none
    else build? ts .next (t.insert (String.ofList k) (.leaf (String.ofList x))) outer
  | .text k :: .colon :: .opening :: ts, place, t, outer =>
    if place = .next ∨ nestingLimit ≤ outer.length + 2 then none
    else build? ts .first .empty ((String.ofList k, t) :: outer)
  | _, _, _, _ => none

end Json

def ofJson? (s : String) : Option Tree :=
  match Json.tokens? s.toList with
  | some (.opening :: ts) => Json.build? ts .first .empty []
  | _ => none

end StyleExports.Tree
