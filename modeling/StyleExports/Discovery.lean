import StyleExports.Config.Field
import StyleExports.Disk.Basic
import StyleExports.Request

namespace StyleExports

namespace Config

def pathIn (root : Disk.Path) : Disk.Path := root.join (.ofString Error.configFileName)

def load (d : Disk) (p : Disk.Path) : Result Config :=
  match d.read p with
  | .error fault => .error (.file p.text .readConfig fault)
  | .ok s => ofText s

end Config

structure Discovery where
  /-- The directory from which places are counted. -/
  root : Disk.Path
  config : Config
  hasConfig : Bool
  stylesheets : List Disk.Path
  deriving DecidableEq, Repr

namespace Discovery

def isStylesheet (p : Disk.Path) : Bool :=
  match p.extension? with
  | some e => isStylesheetExtension e
  | none => false

/-- Add paths, but none that is the same as one found already. -/
def join (found more : List Disk.Path) : List Disk.Path :=
  more.foldl (fun found p => if found.any (Disk.Path.same · p) then found else found ++ [p]) found

/-- The stylesheets that a path leads to, but those left out. -/
def inDirectory (d : Disk) (c : Config) (p : Disk.Path) : List Disk.Path :=
  (d.walk p).filter fun q => !c.isExcluded q.chars && isStylesheet q

/-- The stylesheets in the directories that the configuration names, as seen from the root. -/
def inSources (d : Disk) (c : Config) (root : Disk.Path) : List Disk.Path :=
  (c.effectiveSources.map fun s => inDirectory d c (root.join (.ofString s))).foldl join []

def withConfig (d : Disk) (root : Disk.Path) (c : Config) (hasConfig : Bool) : Discovery :=
  ⟨root, c, hasConfig, inSources d c root⟩

def ofProject (d : Disk) (root : Disk.Path) : Result Discovery :=
  if d.has (Config.pathIn root) then
    (Config.load d (Config.pathIn root)).map fun c => withConfig d root c true
  else .ok (withConfig d root .default false)

/-- The stylesheets of a path that was asked for. A file that was asked for by name is not left
out. -/
def atPath (d : Disk) (c : Config) (p : Disk.Path) : List Disk.Path :=
  if d.hasDirectory p then inDirectory d c p
  else if d.hasFile p && isStylesheet p then [p]
  else []

/-- The root that goes with paths that were asked for: the first of them, or the directory that
the first of them is in. -/
def rootOf (d : Disk) : List Disk.Path → Disk.Path
  | [] => .ofString "."
  | p :: _ => if d.hasDirectory p then p else p.parent?.getD (.ofString ".")

def ofPaths (d : Disk) (ps : List Disk.Path) (c : Config) : Discovery :=
  ⟨rootOf d ps, c, false, (ps.map (atPath d c)).foldl join []⟩

def count (x : Discovery) : Nat := x.stylesheets.length

end Discovery

end StyleExports
