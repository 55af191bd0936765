import StyleExports.Diagnostic
import StyleExports.Discovery

namespace StyleExports.Command

def plural (n : Nat) (one many : String) : String :=
  toString n ++ " " ++ if n = 1 then one else many

def verbWidth : Nat := 12

def status (verb message : String) : String :=
  String.ofList (List.replicate (verbWidth - verb.length) ' ') ++ verb ++ " " ++ message

structure State where
  disk : Disk
  lines : List String
  deriving DecidableEq, Repr

/-- What a command does. One that fails keeps what it has done and said so far. -/
abbrev Action := ExceptT Error (StateM State)

namespace Action

def say (verb message : String) : Action Unit :=
  ExceptT.mk fun s => (.ok (), { s with lines := s.lines ++ [status verb message] })

def report (ds : Diagnostics) : Action Unit :=
  ExceptT.mk fun s => (.ok (), { s with lines := s.lines ++ ds.map Diagnostic.report })

def ofResult {α : Type} (r : Result α) : Action α := ExceptT.mk fun s => (r, s)

def ask {α : Type} (f : Disk → α) : Action α := ExceptT.mk fun s => (.ok (f s.disk), s)

def read (use : FileUse) (p : Disk.Path) : Action String :=
  ExceptT.mk fun s =>
    match s.disk.read p with
    | .ok text => (.ok text, s)
    | .error fault => (.error (.file p.text use fault), s)

def change (use : FileUse) (p : Disk.Path) (f : Disk → Disk.Attempt) : Action Unit :=
  ExceptT.mk fun s =>
    match f s.disk with
    | (none, disk) => (.ok (), { s with disk := disk })
    | (some fault, disk) => (.error (.file p.text use fault), { s with disk := disk })

def write (use : FileUse) (p : Disk.Path) (content : String) : Action Unit :=
  change use p fun d => d.attempt (d.write p content)

def makeOutput (p : Disk.Path) : Action Unit := change .makeOutput p (·.ensureDirectories p)

end Action

/-- The configuration at a path that was asked for, or that of the project in the working
directory, if it has one. -/
def loadConfig (p : Option Disk.Path) : Action Config := do
  let d ← Action.ask id
  match p with
  | some p => Action.ofResult (Config.load d p)
  | none =>
    let p := Disk.Path.ofString Error.configFileName
    if d.has p then Action.ofResult (Config.load d p) else return .default

end StyleExports.Command
