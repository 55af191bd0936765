import StyleExports.Command.Arguments
import StyleExports.Command.Build
import StyleExports.Command.Check
import StyleExports.Command.Init

namespace StyleExports

inductive Command where
  | build (r : Command.BuildRequest)
  | check (r : Command.CheckRequest)
  | init (r : Command.InitRequest)
  | completions (shell : String)
  deriving DecidableEq, Repr

namespace Command

def outOption : OptionSpec := ⟨"out".toList, some 'o', .valued⟩

def configOption : OptionSpec := ⟨"config".toList, some 'c', .valued⟩

def inlineOption : OptionSpec := ⟨"inline".toList, none, .flag⟩

def forceOption : OptionSpec := ⟨"force".toList, none, .flag⟩

def versionOption : OptionSpec := ⟨"version".toList, some 'V', .version⟩

def shells : List (List Char) :=
  ["bash", "elvish", "fish", "powershell", "zsh"].map String.toList

def isPath (s : List Char) : Bool := !s.isEmpty

def readBuild (args : List (List Char)) : Except Refusal Command := do
  let g ← Grammar.read ⟨[outOption, inlineOption, configOption, .help], none, isPath⟩ args
  return .build ⟨g.operands.map Disk.Path.mk, (g.value? outOption).map Disk.Path.mk,
    g.has inlineOption, (g.value? configOption).map Disk.Path.mk⟩

/-- Read what a check is asked for. Without paths, the working directory is checked. -/
def readCheck (args : List (List Char)) : Except Refusal Command := do
  let g ← Grammar.read ⟨[configOption, .help], none, isPath⟩ args
  let paths := if g.operands.isEmpty then [['.']] else g.operands
  return .check ⟨paths.map Disk.Path.mk, (g.value? configOption).map Disk.Path.mk⟩

def readInit (args : List (List Char)) : Except Refusal Command := do
  let g ← Grammar.read ⟨[forceOption, .help], some 1, isPath⟩ args
  return .init ⟨⟨g.operands.head?.getD ['.']⟩, g.has forceOption⟩

def readCompletions (args : List (List Char)) : Except Refusal Command := do
  let g ← Grammar.read ⟨[.help], some 1, shells.contains⟩ args
  match g.operands with
  | [] => .error .missingArgument
  | shell :: _ => return .completions (String.ofList shell)

def names : List (List Char) :=
  ["build", "check", "init", "completions", "help"].map String.toList

def readHelp : List (List Char) → Refusal
  | [] => .help
  | [name] => if names.contains name then .help else .unknownCommand
  | _ => .unknownCommand

def readNamed (name : List Char) (args : List (List Char)) : Except Refusal Command :=
  if name = "build".toList then readBuild args
  else if name = "check".toList then readCheck args
  else if name = "init".toList then readInit args
  else if name = "completions".toList then readCompletions args
  else .error (readHelp args)

def programGrammar : Grammar := ⟨[.help, versionOption], some 0, fun _ => false⟩

/-- Read a command line. No command follows two hyphens that stand alone. -/
def readArguments : List (List Char) → Except Refusal Command
  | [] => .error .noCommand
  | a :: args =>
    if names.contains a then readNamed a args
    else
      match a with
      | ['-', '-'] =>
        match args with
        | [] => .error .noCommand
        | b :: _ => .error (if names.contains b then .unknownArgument else .unknownCommand)
      | '-' :: _ :: _ =>
        match Given.nothing.read programGrammar a with
        | .error e => .error e
        | .ok _ => readArguments args
      | _ => .error .unknownCommand

def ofArguments (args : List String) : Except Refusal Command :=
  readArguments (args.map String.toList)

def action : Command → Action Unit
  | .build r => r.run
  | .check r => r.run
  | .init r => r.run
  | .completions _ => return ()

structure Outcome where
  result : Result Unit
  lines : List String
  disk : Disk

def run (c : Command) (d : Disk) : Outcome :=
  match c.action ⟨d, []⟩ with
  | (r, s) => ⟨r, s.lines, s.disk⟩

def paths : Command → List Disk.Path
  | .build r => r.paths ++ r.out.toList ++ r.config.toList
  | .check r => r.paths ++ r.config.toList
  | .init r => [r.path]
  | .completions _ => []

/-- The directory of a command's project, and the configuration that it reads. -/
def project (c : Command) (d : Disk) : Disk.Path × Config :=
  let loaded (p : Option Disk.Path) : Config :=
    match (loadConfig p ⟨d, []⟩).1 with
    | .ok c => c
    | .error _ => .default
  match c with
  | .build r => (.ofString ".", loaded r.config)
  | .check r => (.ofString ".", loaded r.config)
  | .init r => (r.path, loaded (some (Config.pathIn r.path)))
  | .completions _ => (.ofString ".", .default)

/-- The paths that the configuration of a command adds to those on the command line. -/
def configuredPaths (c : Command) (d : Disk) : List Disk.Path :=
  let (root, config) := c.project d
  .ofString config.output :: config.sources.map fun s => root.join (.ofString s)

end Command

end StyleExports
