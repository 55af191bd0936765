import StyleExports.Text.Cut

namespace StyleExports

open Text

/-- A pattern of paths that a project leaves out. Its stars only say which of these is meant. -/
inductive PathPattern where
  /-- A path through a directory. -/
  | inside (directory : List Char)
  | ending (text : List Char)
  | containing (text : List Char)
  deriving DecidableEq, Repr

namespace PathPattern

/-- The directory of a pattern that ends in a slash and a star. -/
def directory? (s : List Char) : Option (List Char) := ['/', '*'].isSuffixOf? s

/-- Read a pattern. Two stars and a slash in front mean no more than the rest does, except that a
star behind them is none. -/
def ofText (s : List Char) : PathPattern :=
  match s with
  | '*' :: '*' :: '/' :: rest =>
    match directory? rest with
    | some directory => .inside directory
    | none => .containing rest
  | _ =>
    match s with
    | '*' :: rest =>
      if s.contains '/' then
        match directory? s with
        | some directory => .inside directory
        | none => .containing s
      else .ending rest
    | _ =>
      match directory? s with
      | some directory => .inside directory
      | none => .containing s

def passes (directory path : List Char) : Bool :=
  (directory ++ ['/']).isPrefixOf path || occursIn ('/' :: (directory ++ ['/'])) path

def isMatch (path : List Char) : PathPattern → Bool
  | .inside directory => passes directory path
  | .ending text => text.isSuffixOf path
  | .containing text => occursIn text path

end PathPattern

end StyleExports
