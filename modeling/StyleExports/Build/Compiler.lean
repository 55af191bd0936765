import StyleExports.Export.Rule
import StyleExports.Fragment
import StyleExports.Request

namespace StyleExports

open Text

namespace Compiler

/-- Where a character of a selector stands, as far as class names go. -/
inductive Place where
  | outside
  /-- Between square brackets, where a dot begins no class. -/
  | bracket
  | dot
  | name
  /-- In characters after a dot that are no class, because a digit comes first. -/
  | number
  deriving DecidableEq, Repr

def isClassChar (c : Char) : Bool := c.isAlphanum || c == '_' || c == '-'

def Place.afterName (c : Char) : Place :=
  if c = '[' then .bracket else if c = '.' then .dot else .outside

def Place.next : Place → Char → Place
  | .bracket, c => if c = ']' then .outside else .bracket
  | .outside, c => afterName c
  | .dot, c =>
    if c.isDigit then .number else if isClassChar c then .name else afterName c
  | .name, c => if isClassChar c then .name else afterName c
  | .number, c => if isClassChar c then .number else afterName c

/-- The class names in a selector, in order. `name` is the name so far, read backwards. -/
def classNamesFrom : Place → List Char → List Char → List (List Char)
  | p, name, [] => if p = .name then [name.reverse] else []
  | p, name, c :: s =>
    let q := p.next c
    if q = .name then classNamesFrom q (c :: name) s
    else if p = .name then name.reverse :: classNamesFrom q [] s
    else classNamesFrom q [] s

def classNames (s : List Char) : List (List Char) := classNamesFrom .outside [] s

def suffixedFrom (suffix : List Char → List Char) : Place → List Char → List Char → List Char
  | p, name, [] => if p = .name then suffix name.reverse else []
  | p, name, c :: s =>
    let q := p.next c
    if q = .name then c :: suffixedFrom suffix q (c :: name) s
    else if p = .name then suffix name.reverse ++ c :: suffixedFrom suffix q [] s
    else c :: suffixedFrom suffix q [] s

def suffixed (suffix : List Char → List Char) (s : List Char) : List Char :=
  suffixedFrom suffix .outside [] s

def fnv1a (bytes : List UInt8) : UInt32 :=
  bytes.foldl (fun h b => (h ^^^ b.toUInt32) * 0x01000193) 0x811c9dc5

def sixDigits (n : Nat) : List Char :=
  [n / 0x100000, n / 0x10000, n / 0x1000, n / 0x100, n / 0x10, n].map fun k =>
    Quoted.hexDigit (k % 16)

def suffix (path name : List Char) : List Char :=
  '_' :: sixDigits (fnv1a (String.ofList (path ++ ':' :: name)).toUTF8.toList).toNat

def selectors : Stylesheet.Sheet → List (List Char)
  | .empty => []
  | .piece _ rest => selectors rest
  | .block prelude inner _ rest =>
    match Stylesheet.Prelude.ofText prelude with
    | .rule s => s :: (selectors inner ++ selectors rest)
    | .atRule _ => selectors inner ++ selectors rest

def mapRules (f : List Char → List Char) : Stylesheet.Sheet → Stylesheet.Sheet
  | .empty => .empty
  | .piece p rest => .piece p (mapRules f rest)
  | .block prelude inner closed rest =>
    .block (if isAtRule prelude then prelude else f prelude) (mapRules f inner) closed
      (mapRules f rest)

/-- The classes of a stylesheet in the order in which they are first used. -/
def classes (css : List Char) : List (List Char) :=
  ((selectors (Stylesheet.Sheet.ofText css)).flatMap classNames).eraseDups

def withSuffixes (path css : List Char) : List Char :=
  (mapRules (suffixed (suffix path)) (Stylesheet.Sheet.ofText css)).toText

def binding : List Char := "__vite__css".toList

/-- The lines that export classes under their own names, as far as these can be declared. -/
def classConstants (path : List Char) (names : List (List Char)) : List (List Char) :=
  (names.filter fun n => Identifier.isValid (String.ofList n)).map fun n =>
    Fragment.constant n (Quoted.encode (n ++ suffix path n))

def classMap (path : List Char) (names : List (List Char)) : List Char :=
  let row (n : List Char) : List Char :=
    Quoted.encode n ++ ':' :: ' ' :: Quoted.encode (n ++ suffix path n)
  "export default \x7b ".toList ++ join [',', ' '] (names.map row) ++ " \x7d;".toList

def lines (r : Request) (css : List Char) : List (List Char) :=
  if r.isInline then ["export default ".toList ++ Quoted.encode css ++ [';']]
  else if r.isClassMap then
    let names := classes css
    Fragment.constant binding (Quoted.encode (withSuffixes r.path css)) ::
      (classConstants r.path names ++ [classMap r.path names])
  else
    [Fragment.constant binding (Quoted.encode css), "export default ".toList ++ binding ++ [';']]

/-- Compile a stylesheet, if the request is for one and not for one passed through. -/
def compile? (r : Request) (css : String) : Option String :=
  if r.isStylesheet && !r.isVirtual then
    some (String.ofList ((lines r css.toList).flatMap fun line => line ++ ['\n']))
  else none

def stageName : String := "css-post"

end Compiler

end StyleExports
