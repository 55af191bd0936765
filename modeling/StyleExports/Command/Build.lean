import StyleExports.Build.Pipeline
import StyleExports.Command.Action

namespace StyleExports.Command

structure BuildRequest where
  /-- Stylesheets and directories; if there are none, the sources of the configuration. -/
  paths : List Disk.Path
  out : Option Disk.Path
  inline : Bool
  config : Option Disk.Path
  deriving DecidableEq, Repr

def requestId (shown : String) (inline : Bool) : String :=
  let path := shown.toList.map fun c => if c = '\\' then '/' else c
  String.ofList (path ++ (if inline then "?export&inline" else "?export").toList)

def outputName (file : Disk.Path) : List Char := file.stem?.getD "stylesheet".toList

/-- A stylesheet, and the place of its module below the output directory. -/
structure Planned where
  file : Disk.Path
  target : Disk.Path
  deriving DecidableEq, Repr

namespace Planned

/-- The plan for one stylesheet. A stylesheet that is not below the root goes to the top. -/
def ofFile (root file : Disk.Path) : Planned :=
  let directory := ((root.strip? file).bind Disk.Path.parent?).getD ⟨[]⟩
  ⟨file, directory.join ⟨outputName file⟩⟩

/-- Plan stylesheets, of which some are planned already. `shown` shows a path to a reader. -/
def addAll (shown : Disk.Path → String) (root : Disk.Path) :
    List Planned → List Disk.Path → Result (List Planned)
  | plan, [] => .ok plan
  | plan, f :: fs =>
    let p := ofFile root f
    match plan.find? (·.target.same p.target) with
    | some q => .error (.sameOutput (shown q.file) (shown f) p.target.text)
    | none => addAll shown root (plan ++ [p]) fs

/-- The plan for what was found, in the order of the places of modules. -/
def ofDiscovery (shown : Disk.Path → String) (x : Discovery) : Result (List Planned) :=
  (addAll shown x.root [] x.stylesheets).map fun plan => plan.mergeSort (·.target.le ·.target)

end Planned

/-- What stays the same for all stylesheets of a build. -/
structure Builder where
  output : Disk.Path
  inline : Bool
  pipeline : Pipeline

namespace Builder

/-- Write what a stylesheet passes on beside its module, and let the module import it. -/
def writePassed (id : String) (name : List Char) (directory : Disk.Path) (x : BuildContext)
    (code : String) : Action String := do
  let virtualId := (Request.ofId id).virtualId
  let cssName := name ++ ".export.css".toList
  Action.write .writeOutput (directory.join ⟨cssName⟩) ((Plugin.load? virtualId x).getD "")
  let imported := Text.Quoted.literal ("./" ++ String.ofList cssName)
  return String.ofList
    (Text.exchangeFirst (Text.Quoted.literal virtualId).toList imported.toList code.toList)

def buildFile (b : Builder) (p : Planned) (x : BuildContext) :
    Action (Diagnostics × BuildContext) := do
  let source ← Action.read .readSource p.file
  let shown ← Action.ask (·.shown p.file)
  let id := requestId shown b.inline
  Action.say "Compiling" shown
  let (r, x) := b.pipeline.run id source x
  let work ← Action.ofResult r
  Action.report work.diagnostics
  let name := outputName p.file
  let directory := (b.output.join p.target).parent?.getD (.ofString ".")
  Action.makeOutput directory
  let code ← if b.inline then pure work.code else writePassed id name directory x work.code
  Action.write .writeOutput (directory.join ⟨name ++ ".js".toList⟩) code
  return (work.diagnostics, x)

def buildAll (b : Builder) : List Planned → BuildContext → Action Diagnostics
  | [], _ => return []
  | p :: ps, x => do
    let (ds, x) ← b.buildFile p x
    let more ← b.buildAll ps x
    return ds ++ more

end Builder

def BuildRequest.discover (r : BuildRequest) (d : Disk) (c : Config) : Discovery :=
  if r.paths.isEmpty then .withConfig d (.ofString ".") c true else .ofPaths d r.paths c

def BuildRequest.run (r : BuildRequest) : Action Unit := do
  let c ← loadConfig r.config
  let output := r.out.getD (.ofString c.output)
  let options ← Action.ofResult c.options
  let found ← Action.ask (r.discover · c)
  let plan ← Action.ofResult (← Action.ask fun d => Planned.ofDiscovery d.shown found)
  if !(← Action.ask (·.has output)) then Action.makeOutput output
  let pipeline ← Action.ofResult (Plugin.install ⟨options, Compiler.stageName⟩ [.compiler])
  let ds ← Builder.buildAll ⟨output, r.inline, pipeline⟩ plan .fresh
  if ds.hasErrors then
    Action.ofResult (.error (.exportErrors (plural (ds.countOf .error) "error" "errors") true))
  let warnings :=
    if ds.hasWarnings then " (" ++ plural (ds.countOf .warning) "warning" "warnings" ++ ")" else ""
  Action.say "Finished"
    (plural found.count "stylesheet" "stylesheets" ++ " to " ++ (← Action.ask (·.shown output)) ++
      warnings)

end StyleExports.Command
