import StyleExports.EsModule.Binding
import StyleExports.EsModule.Chunk

namespace StyleExports.EsModule

open Text

/-- One entry of an export list: a binding and the name that it is exported under. -/
@[ext] structure Specifier where
  name : String
  exported : String
  deriving DecidableEq, Repr

inductive Kind where
  | importing
  | declaration (names : List String)
  /-- An export list, and the module that it exports from if it names one. -/
  | exportList (specifiers : List Specifier) (source : Option String)
  /-- An export of everything in another module, or of that module under one name. -/
  | exportAll (name : Option String)
  /-- A declaration that is no longer exported. -/
  | localDeclaration (names : List String)
  /-- A default export, and the offset of the brace if it exports an object literal. -/
  | exportDefault (brace : Option Nat)
  | comment
  | statement
  deriving DecidableEq, Repr

/-- An item at the top of a module: its text, the range it came from, and what it is. -/
@[ext] structure Item where
  text : List Char
  start : Nat
  stop : Nat
  kind : Kind
  deriving DecidableEq, Repr

namespace Specifier

def render (e : Specifier) : String :=
  if e.name = e.exported then e.name else e.name ++ " as " ++ e.exported

def ofText (s : List Char) : Specifier :=
  match cutText? " as ".toList s with
  | some (name, exported) => ⟨String.ofList (trim name), String.ofList (trim exported)⟩
  | none => ⟨String.ofList s, String.ofList s⟩

def listOfText (s : List Char) : List Specifier :=
  (((split (· == ',') s).map trim).filter (· ≠ [])).map ofText

end Specifier

namespace Kind

/-- The quoted name of the module in the text after an export list. -/
def source? (s : List Char) : Option String :=
  (afterKeyword? "from".toList (trimStart s)).map fun rest =>
    String.ofList (trimEnd (dropEndWhile (· == ';') (trim rest)))

def ofList (s : List Char) : Kind :=
  match cut? (· == '}') s with
  | some (inner, tail) => .exportList (Specifier.listOfText inner) (source? tail)
  | none => .exportList (Specifier.listOfText s) none

/-- The name under which everything is exported, by the text after the asterisk. -/
def starName? (s : List Char) : Option String :=
  (afterKeyword? "as".toList (trimStart s)).bind fun rest => identifier? (trimStart rest)

/-- What an export is, by its text after the keyword; the text ends at the offset `stop`. -/
def ofExport (stop : Nat) (s : List Char) : Kind :=
  match afterKeyword? "default".toList s with
  | some rest =>
    match trimStart rest with
    | '{' :: inner => .exportDefault (some (stop - size ('{' :: inner)))
    | _ => .exportDefault none
  | none =>
    match s with
    | '*' :: rest => .exportAll (starName? rest)
    | '{' :: rest => ofList rest
    | _ => .declaration (declaredNames s)

/-- What a statement is; it ends at the offset `stop`. A call or a member of `import` is an
expression. -/
def ofStatement (stop : Nat) (s : List Char) : Kind :=
  match afterKeyword? "import".toList s with
  | some rest =>
    match trimStart rest with
    | '(' :: _ => .statement
    | '.' :: _ => .statement
    | _ => .importing
  | none =>
    match afterKeyword? "export".toList s with
    | some rest => ofExport stop (trimStart rest)
    | none => .statement

end Kind

def Item.ofChunk (k : Chunk) : Item :=
  ⟨k.text, k.start, k.stop, if k.isComment then .comment else Kind.ofStatement k.stop k.text⟩

end StyleExports.EsModule
