import StyleExports.Disk.Basic
import StyleExports.EsModule.Scan
import StyleExports.Glob.Pattern
import StyleExports.Text.Position

namespace StyleExports

inductive FileUse where
  | readSource
  | readConfig
  | writeConfig
  | makeOutput
  | writeOutput
  deriving DecidableEq, Repr

def FileUse.failure : FileUse → String
  | .readSource => "Failed to read file"
  | .readConfig => "Failed to read config"
  | .writeConfig => "Failed to write config"
  | .makeOutput => "Failed to create output directory"
  | .writeOutput => "Failed to write output"

/-- The causes for which a build stops. -/
inductive Error where
  | file (path : String) (use : FileUse) (fault : Disk.Fault)
  /-- A compiled module has no statements. -/
  | badModule (fault : EsModule.Fault) (place : Text.Position)
  | badConfig
  | badSharedName (name : String)
  | badInclude (pattern : String) (fault : Glob.Fault)
  /-- A compiled module would declare a name twice. -/
  | stillDeclared (name : String)
  | alreadyExported (name : String)
  | configExists
  | sameOutput (first second target : String)
  /-- Export rules have so many errors; `building` if modules were to be written. -/
  | exportErrors (count : String) (building : Bool)
  | stageFailed (message : String)
  | noStage (name : String)
  deriving DecidableEq, Repr

namespace Error

inductive Kind where
  | io
  | parse
  | config
  | build
  | stageNotFound
  deriving DecidableEq, Repr

def kind : Error → Kind
  | .file .. => .io
  | .badModule .. => .parse
  | .badConfig => .config
  | .badSharedName _ => .config
  | .badInclude .. => .config
  | .stillDeclared _ => .build
  | .alreadyExported _ => .build
  | .configExists => .build
  | .sameOutput .. => .build
  | .exportErrors .. => .build
  | .stageFailed _ => .build
  | .noStage _ => .stageNotFound

def code (e : Error) : String :=
  match e.kind with
  | .io => "css_export::io"
  | .parse => "css_export::parse"
  | .config => "css_export::config"
  | .build => "css_export::build"
  | .stageNotFound => "css_export::stage_not_found"

def configFileName : String := "css-export.yaml"

def cause : Error → String
  | .file _ use fault => use.failure ++ ": " ++ fault.message
  | .badModule fault place => fault.message ++ " at " ++ place.render ++ " in compiled module"
  | .badConfig => "Invalid config"
  | .badSharedName name => "`" ++ name ++ "` is not a valid shared export name"
  | .badInclude pattern fault =>
    "Invalid include pattern '" ++ pattern ++ "': error parsing glob '" ++ pattern ++ "': " ++
      fault.message
  | .stillDeclared name =>
    "compiled module still declares `" ++ name ++ "` after its export was removed"
  | .alreadyExported name => "compiled module already exports `" ++ name ++ "`"
  | .configExists => configFileName ++ " already exists"
  | .sameOutput first second target =>
    first ++ " and " ++ second ++ " would both be written as " ++ target ++ ".js"
  | .exportErrors count _ => count ++ " in export selectors"
  | .stageFailed message => message
  | .noStage name =>
    "Pipeline stage `" ++ name ++ "` not found; css exports are disabled for this build"

def message (e : Error) : String :=
  match e with
  | .file path _ _ => "IO error with " ++ path ++ ": " ++ e.cause
  | .noStage _ => e.cause
  | _ =>
    match e.kind with
    | .parse => "Parse error: " ++ e.cause
    | .config => "Configuration error: " ++ e.cause
    | _ => "Build error: " ++ e.cause

def help : Error → Option String
  | .file .. => none
  | .badModule .. => some "The downstream stage must produce a valid ES module"
  | .badConfig => some "Check css-export.yaml syntax"
  | .badSharedName _ => some "Use a JavaScript identifier such as `sharedData`"
  | .badInclude .. => some "Use glob syntax such as `src/**/*.scss`"
  | .stillDeclared name => some ("Rename the `" ++ name ++ "` export rule or the compiled binding")
  | .alreadyExported _ => some "Choose a different shared export name"
  | .configExists => some "Use --force to overwrite"
  | .sameOutput .. => some "Rename one of the stylesheets or build them separately"
  | .exportErrors _ building =>
    if building then some "Export paths may only contain names separated by spaces" else none
  | .stageFailed _ => none
  | .noStage _ =>
    some "Register the stylesheet compiler stage before installing the css-export plugin"

end Error

abbrev Result (α : Type) := Except Error α

end StyleExports
