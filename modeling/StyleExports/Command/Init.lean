import StyleExports.Command.Action

namespace StyleExports.Command

structure InitRequest where
  path : Disk.Path
  force : Bool
  deriving DecidableEq, Repr

namespace InitRequest

def sourceOf? (root file : Disk.Path) : Option (List Char) :=
  file.parent?.map fun directory =>
    let relative := (root.strip? directory).getD directory
    if relative.components.isEmpty then ['.'] else relative.chars ++ ['/']

/-- The directories of stylesheets, each once and in order. -/
def sources (x : Discovery) : List (List Char) :=
  ((x.stylesheets.filterMap (sourceOf? x.root)).mergeSort Text.le).eraseDups

/-- The sources in a configuration. If all stylesheets are in the project's own directory, none
are named. -/
def sourceLines (sources : List (List Char)) : List Char :=
  if sources = [] ∨ sources = [['.']] then []
  else
    "sources:\n".toList ++
      sources.flatMap fun s => "  - \"".toList ++ s ++ "\"\n".toList

def standardLines : List Char :=
  ("output: dist\n" ++ "excludes:\n  - \"**/node_modules/*\"\n" ++ "is_global_module: false\n" ++
    "enable_merge_exports: false\n" ++ "shared_export_name: sharedData\n" ++
    "# none | lower-camel | upper-camel\n" ++ "property_name_transformer: none\n" ++
    "additional_data: \x7b\x7d\n").toList

def configText (sources : List (List Char)) : String :=
  String.ofList (sourceLines sources ++ standardLines)

end InitRequest

def InitRequest.run (r : InitRequest) : Action Unit := do
  let configPath := Config.pathIn r.path
  if (← Action.ask (·.has configPath)) && !r.force then Action.ofResult (.error .configExists)
  Action.say "Scanning" (← Action.ask (·.shown r.path))
  let found ← Action.ofResult (← Action.ask (Discovery.ofProject · r.path))
  let sources := InitRequest.sources found
  Action.write .writeConfig configPath (InitRequest.configText sources)
  if !sources.isEmpty then
    Action.say "Discovered" (String.ofList (Text.join [',', ' '] sources))
  Action.say "Created"
    (Error.configFileName ++ " (" ++ plural found.count "stylesheet" "stylesheets" ++ " found)")

end StyleExports.Command
