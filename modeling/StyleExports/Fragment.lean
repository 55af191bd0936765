import StyleExports.Tree.Json

namespace StyleExports

open Text

namespace Identifier

def reserved : List String :=
  ["arguments", "await", "break", "case", "catch", "class", "const", "continue", "debugger",
    "default", "delete", "do", "else", "enum", "eval", "export", "extends", "false", "finally",
    "for", "function", "if", "implements", "import", "in", "instanceof", "interface", "let", "new",
    "null", "package", "private", "protected", "public", "return", "static", "super", "switch",
    "this", "throw", "true", "try", "typeof", "undefined", "var", "void", "while", "with", "yield"]

def isStart (c : Char) : Bool := c.isAlpha || c == '_' || c == '$'

def isPart (c : Char) : Bool := c.isAlphanum || c == '_' || c == '$'

def isShape : List Char → Bool
  | [] => false
  | c :: s => isStart c && s.all isPart

def isValid (name : String) : Bool := isShape name.toList && !reserved.contains name

end Identifier

namespace Value

def literal : Value → List Char
  | .leaf x => Quoted.encode x.toList
  | .node t => t.jsonChars

end Value

namespace Fragment

def names (t : Tree) : List String := t.keys.filter Identifier.isValid

def constant (name : List Char) (literal : List Char) : List Char :=
  "export const ".toList ++ name ++ " = ".toList ++ literal ++ [';']

def constants (t : Tree) : List (List Char) :=
  (t.entries.filter fun e => Identifier.isValid e.1).map fun e =>
    constant e.1.toList e.2.literal

def row (e : String × Value) : List Char :=
  if Identifier.isValid e.1 then e.1.toList
  else Quoted.encode e.1.toList ++ ':' :: ' ' :: e.2.literal

def defaultExport (t : Tree) : List Char :=
  match t.entries with
  | [] => "export default \x7b\x7d;".toList
  | es =>
    "export default \x7b\n\t".toList ++ join [',', '\n', '\t'] (es.map row) ++ "\n\x7d;".toList

/-- Every name at the top of the tree that can be a binding is exported under that name. The
default export is the whole tree, in which those names stand for themselves and all others are
quoted. -/
def text (t : Tree) : List Char :=
  (constants t ++ [defaultExport t]).flatMap fun line => line ++ ['\n']

end Fragment

end StyleExports
