import StyleExports.Command.Action
import StyleExports.Extraction

namespace StyleExports.Command

structure CheckRequest where
  paths : List Disk.Path
  config : Option Disk.Path
  deriving DecidableEq, Repr

def checkFile (casing : Option Renaming) (file : Disk.Path) : Action Diagnostics := do
  let source ← Action.read .readSource file
  let shown ← Action.ask (·.shown file)
  let e := Extraction.ofText casing source.toList
  Action.report e.diagnostics
  Action.say "Checked" (shown ++ " (" ++ plural e.extract.tree.count "key" "keys" ++ ")")
  return e.diagnostics

def checkAll (casing : Option Renaming) : List Disk.Path → Action Diagnostics
  | [] => return []
  | f :: fs => do
    let ds ← checkFile casing f
    let more ← checkAll casing fs
    return ds ++ more

def CheckRequest.run (r : CheckRequest) : Action Unit := do
  let c ← loadConfig r.config
  let options ← Action.ofResult c.options
  let found ← Action.ask (Discovery.ofPaths · r.paths c)
  let ds ← checkAll options.casing found.stylesheets
  if ds.hasErrors then
    Action.say "Failed" ds.summary
    Action.ofResult (.error (.exportErrors (plural (ds.countOf .error) "error" "errors") false))
  Action.say "Finished" (plural found.count "stylesheet" "stylesheets" ++ ": " ++ ds.summary)

end StyleExports.Command
