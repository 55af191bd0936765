import StyleExports.EsModule.Basic
import StyleExports.Error
import StyleExports.Fragment

namespace StyleExports

open Text

inductive Policy where
  /-- The default export and the names of the tree give way. -/
  | plain
  /-- Every export gives way but those that belong to the host. -/
  | override
  /-- Every export stays, and the tree joins the default export. -/
  | merge
  deriving DecidableEq, Repr

namespace Policy

/-- The policy for one request. Only modules that map classes are overridden or merged with. -/
def select (classMap global merging : Bool) : Policy :=
  if classMap || global then (if merging then .merge else .override) else .plain

def word : Policy → String
  | .plain => "plain"
  | .override => "override"
  | .merge => "merge"

end Policy

namespace Synthesis

/-- What the names of exports that belong to the host begin with. -/
def hostMark : List Char := ['_', '_', 'v', 'i', 't', 'e', '_', '_']

def isHostName (name : String) : Bool := hostMark.isPrefixOf name.toList

def readModule (source : List Char) : Result EsModule :=
  match EsModule.ofText? source with
  | .ok m => .ok m
  | .error (fault, offset) => .error (.badModule fault (Position.ofOffset source offset))

/-- The module without its default export and without the named exports that do not stay. -/
def stripped (stays : String → Bool) (m : EsModule) : EsModule :=
  m.removeDefault.retainExports stays

/-- A name that a module still declares cannot be declared again by the lines of a tree. -/
def append (m : EsModule) (t : Tree) : Result String := do
  let names := Fragment.names t
  match m.localNames.find? names.contains with
  | some name => .error (.stillDeclared name)
  | none =>
    let fragment ← readModule (Fragment.text t)
    return String.ofList (EsModule.toText (m ++ fragment))

/-- The default export of an object that a tree can join: where the statement starts, and the
brace. -/
def anchor? (m : EsModule) : Option (Nat × Nat) :=
  match m.default? with
  | some i =>
    match i.kind with
    | .exportDefault (some brace) => some (i.start, brace)
    | _ => none
  | none => none

def textFrom (n : Nat) (s : List Char) : List Char := s.drop (takeSize n s).length

/-- A declaration of the tree, in front of a default export that the tree joins. -/
def joined (source declaration name : List Char) (start brace : Nat) : List Char :=
  takeSize start source ++ declaration ++ "\nexport default \x7b ".toList ++ name ++ [','] ++
    textFrom (brace + 1) source

def appended (source declaration : List Char) : List Char :=
  let body := trimEnd source
  (if body.isEmpty then [] else body ++ ['\n']) ++ declaration ++ ['\n']

/-- Keep all exports and add the tree under a name of its own. -/
def mergeInto (source : List Char) (m : EsModule) (t : Tree) (inline : Bool) (name : String) :
    Result String :=
  if m.exportedNames.contains name then .error (.alreadyExported name)
  else
    let declaration := Fragment.constant name.toList t.jsonChars
    match anchor? m with
    | some (start, brace) =>
      if inline then .ok (String.ofList (appended source declaration))
      else .ok (String.ofList (joined source declaration name.toList start brace))
    | none => .ok (String.ofList (appended source declaration))

end Synthesis

/-- Add the exports of a tree to a compiled module. Unless they are merged with those of the module
they come last, with the only default export. -/
def synthesize (t : Tree) (source : String) (policy : Policy) (inline : Bool) (name : String) :
    Result String := do
  let m ← Synthesis.readModule source.toList
  let names := Fragment.names t
  match policy with
  | .plain => Synthesis.append (Synthesis.stripped (fun n => !names.contains n) m) t
  | .override =>
    Synthesis.append
      (Synthesis.stripped (fun n => Synthesis.isHostName n && !names.contains n) m) t
  | .merge => Synthesis.mergeInto source.toList m t inline name

end StyleExports
