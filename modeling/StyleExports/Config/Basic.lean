import StyleExports.Build.Plugin
import StyleExports.Config.PathPattern
import StyleExports.Glob.Pattern

namespace StyleExports

structure Config where
  sources : List String
  output : String
  /-- The patterns of paths that are left out. -/
  excludes : List String
  global : Bool
  merging : Bool
  sharedName : String
  casing : Option Casing
  additional : Tree
  /-- The patterns of requests in scope though they do not ask for shared data. -/
  includes : List String
  deriving DecidableEq, Repr

namespace Config

def default : Config where
  sources := []
  output := "dist"
  excludes := []
  global := false
  merging := false
  sharedName := Options.defaultSharedName
  casing := none
  additional := .empty
  includes := []

/-- The directories to look through: those that were chosen, or else the project itself. -/
def effectiveSources (c : Config) : List String := if c.sources.isEmpty then ["."] else c.sources

def isExcluded (c : Config) (path : List Char) : Bool :=
  c.excludes.any fun p => (PathPattern.ofText p.toList).isMatch path

/-- Read patterns of requests. The first that is none is to blame. -/
def readIncludes : List String → Result (List Glob.Pattern)
  | [] => .ok []
  | s :: ss =>
    match Glob.Pattern.ofText? s.toList with
    | .error fault => .error (.badInclude s fault)
    | .ok p => (readIncludes ss).map (p :: ·)

/-- Whether one of some patterns matches the path of a request, with or without slashes in front
of it. -/
def accepts (ps : List Glob.Pattern) (id : String) : Bool :=
  let path := id.toList.takeWhile (· != '?')
  ps.any fun p => p.isMatch path || p.isMatch (path.dropWhile (· == '/'))

def options (c : Config) : Result Options := do
  let ps ← readIncludes c.includes
  Options.check ⟨c.global, c.merging, c.sharedName, c.casing, c.additional, accepts ps⟩

end Config

end StyleExports
