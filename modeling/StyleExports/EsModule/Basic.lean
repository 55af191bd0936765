import StyleExports.EsModule.Item

namespace StyleExports

open Text

/-- A module: its items in order. -/
abbrev EsModule := List EsModule.Item

namespace EsModule

def ofText? (s : List Char) : Except Scan.Placed EsModule :=
  (chunks 0 s).map (·.map Item.ofChunk)

def toText (m : EsModule) : List Char :=
  match m with
  | [] => []
  | _ => join ['\n'] (m.map (·.text)) ++ ['\n']

namespace Item

/-- The names that an item exports. An export of everything in another module contributes none:
they are not known here. -/
def exportedNames (i : Item) : List String :=
  match i.kind with
  | .declaration names => names
  | .exportList specifiers _ => (specifiers.map (·.exported)).filter (· ≠ "default")
  | .exportAll (some name) => [name]
  | _ => []

def localNames (i : Item) : List String :=
  match i.kind with
  | .localDeclaration names => names
  | _ => []

def isDefault (i : Item) : Bool :=
  match i.kind with
  | .exportDefault _ => true
  | _ => false

/-- Whether an item exports something as the default, by statement or by specifier. -/
def hasDefault (i : Item) : Bool :=
  match i.kind with
  | .exportDefault _ => true
  | .exportList specifiers _ => specifiers.any (·.exported == "default")
  | _ => false

def listText (specifiers : List Specifier) (source : Option String) : String :=
  let inner := String.intercalate ", " (specifiers.map Specifier.render)
  match source with
  | some s => "export \x7b " ++ inner ++ " \x7d from " ++ s ++ ";"
  | none => "export \x7b " ++ inner ++ " \x7d;"

/-- Keep some specifiers of an export list. A list that loses some is written anew, and one that
loses all goes. -/
def retainSpecifiers (keep : String → Bool) (i : Item) : Option Item :=
  match i.kind with
  | .exportList specifiers source =>
    let kept := specifiers.filter fun e => keep e.exported
    if kept.length = specifiers.length then some i
    else if kept.isEmpty then none
    else
      some { i with text := (listText kept source).toList, kind := .exportList kept source }
  | _ => some i

def withoutExport (s : List Char) : List Char :=
  match afterKeyword? "export".toList s with
  | some rest => trimStart rest
  | none => s

/-- An export list for names that were declared where the item was. -/
def listOf (names : List String) (i : Item) : Item :=
  let specifiers := names.map fun n => ⟨n, n⟩
  { i with text := (listText specifiers none).toList, kind := .exportList specifiers none }

/-- Keep some names of an exported declaration, or some exports of everything in another module,
which go by the name `*` if they have no other. -/
def retainNames (keep : String → Bool) (i : Item) : List Item :=
  match i.kind with
  | .declaration names =>
    let kept := names.filter keep
    if kept.length = names.length then [i]
    else if kept.isEmpty then []
    else [{ i with text := withoutExport i.text, kind := .localDeclaration names }, i.listOf kept]
  | .exportAll name => if keep (name.getD "*") then [i] else []
  | _ => [i]

end Item

/-- The names that a module exports, the default left out. -/
def exportedNames (m : EsModule) : List String := m.flatMap Item.exportedNames

def localNames (m : EsModule) : List String := m.flatMap Item.localNames

/-- The first default export that is a statement of its own. -/
def default? (m : EsModule) : Option Item := m.find? Item.isDefault

def hasDefault (m : EsModule) : Bool := m.any Item.hasDefault

def retainSpecifiers (keep : String → Bool) (m : EsModule) : EsModule :=
  m.filterMap (Item.retainSpecifiers keep)

def removeDefault (m : EsModule) : EsModule :=
  retainSpecifiers (· ≠ "default") (m.filter fun i => !i.isDefault)

/-- Keep some of the exported names. What is exported as the default stays. -/
def retainExports (keep : String → Bool) (m : EsModule) : EsModule :=
  retainSpecifiers (fun n => n == "default" || keep n) (m.flatMap (Item.retainNames keep))

end EsModule

end StyleExports
