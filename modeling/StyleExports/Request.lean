import StyleExports.Text.Blank
import StyleExports.Text.Cut

namespace StyleExports

open Text

def stylesheetExtensions : List (List Char) :=
  ["css", "less", "sass", "scss", "styl", "stylus", "pcss", "postcss"].map String.toList

def isStylesheetExtension (e : List Char) : Bool :=
  stylesheetExtensions.any (eqIgnoreCase · e)

/-- What the ids of passed-through stylesheets begin with. -/
def virtualStem : List Char := "virtual:css-export/".toList

@[ext] structure Request where
  path : List Char
  query : Option (List Char)
  deriving DecidableEq, Repr

namespace Request

def ofChars (s : List Char) : Request :=
  match cut? (· == '?') s with
  | some (path, query) => ⟨path, some query⟩
  | none => ⟨s, none⟩

def ofId (id : String) : Request := ofChars id.toList

def chars (r : Request) : List Char :=
  match r.query with
  | some query => r.path ++ '?' :: query
  | none => r.path

/-- The last part of a path between slashes of either kind. -/
def lastName (path : List Char) : List Char :=
  match split (fun c => c == '/' || c == '\\') path with
  | [] => path
  | w :: ws => (w :: ws).getLast (List.cons_ne_nil w ws)

def fileName (r : Request) : List Char := lastName r.path

/-- A file name before and after its last dot. A dot in front makes a hidden file, not an
extension. -/
def extension? (r : Request) : Option (List Char) :=
  match cutLast? (· == '.') r.fileName with
  | some ([], _) => none
  | some (_, e) => some e
  | none => none

def isStylesheet (r : Request) : Bool :=
  match r.extension? with
  | some e => isStylesheetExtension e
  | none => false

def parameterName (s : List Char) : List Char := s.takeWhile (· != '=')

/-- Whether the query has a parameter, with or without a value. -/
def hasParameter (name : List Char) (r : Request) : Bool :=
  match r.query with
  | some query => (split (· == '&') query).any (parameterName · == name)
  | none => false

def wantsExports (r : Request) : Bool := r.hasParameter "export".toList

def isInline (r : Request) : Bool := r.hasParameter "inline".toList

/-- Whether the classes of the stylesheet form a map: its name without the extension ends in
`.module`. -/
def isClassMap (r : Request) : Bool :=
  r.isStylesheet &&
    match cutLast? (· == '.') r.fileName with
    | some (stem, _) => ".module".toList.isSuffixOf stem
    | none => false

def isVirtual (r : Request) : Bool := virtualStem.isPrefixOf r.chars

/-- The id of the passed-through stylesheet of a file. It depends on the path only, so all
requests for one file share it. -/
def virtualId (r : Request) : String :=
  String.ofList (virtualStem ++ r.path.dropWhile (· == '/') ++ ".css".toList)

end Request

end StyleExports
