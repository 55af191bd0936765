import StyleExports.Build.Compiler
import StyleExports.Build.Context
import StyleExports.Synthesis

namespace StyleExports

structure Options where
  /-- Whether every stylesheet is treated like one whose classes form a map. -/
  global : Bool
  /-- Whether shared data joins the map of classes instead of taking its place. -/
  merging : Bool
  /-- The name under which shared data joins. -/
  sharedName : String
  casing : Option Renaming
  /-- Data merged over that of every stylesheet. -/
  additional : Tree
  /-- The requests in scope though they do not ask for shared data. -/
  accepts : String → Bool

namespace Options

def defaultSharedName : String := "sharedData"

def default : Options := ⟨false, false, defaultSharedName, none, .empty, fun _ => false⟩

/-- Refuse a name for shared data that cannot be declared. -/
def check (o : Options) : Result Options :=
  if Identifier.isValid o.sharedName then .ok o else .error (.badSharedName o.sharedName)

end Options

/-- The sharing of data, as composed with one stage of a pipeline. -/
structure Plugin where
  options : Options
  /-- The name of the stage that compiles stylesheets. -/
  downstream : String

namespace Plugin

def stageName : String := "css-export"

/-- Whether the first phase handles a request: it is for a stylesheet, and asks for shared data or
is accepted without asking. -/
def inScope (p : Plugin) (id : String) : Bool :=
  let r := Request.ofId id
  r.isStylesheet && !r.isVirtual && (r.wantsExports || p.options.accepts id)

/-- What a stylesheet shares, the additional data included. -/
def extraction (p : Plugin) (css : String) : Extraction :=
  let e := Extraction.ofText p.options.casing css.toList
  { e with extract := { e.extract with tree := e.extract.tree.merge p.options.additional } }

/-- Remember an extract. The stylesheet that is left is kept too, unless it comes inline. -/
def remember (id : String) (e : Extract) (x : BuildContext) : BuildContext :=
  let r := Request.ofId id
  (if r.isInline then x else x.register r.virtualId e.passthrough).store id e

/-- The first phase. Nothing happens out of scope. -/
def extract (p : Plugin) (id css : String) (x : BuildContext) : Option Extraction × BuildContext :=
  if p.inScope id then
    let e := p.extraction css
    (some e, remember id e.extract x)
  else (none, x)

def policy (p : Plugin) (r : Request) : Policy :=
  Policy.select r.isClassMap p.options.global p.options.merging

def importLine (id : String) : String := "import " ++ Text.Quoted.literal id ++ ";\n"

def finished (p : Plugin) (id : String) (e : Extract) (code : String) : Result String := do
  let r := Request.ofId id
  let code ← synthesize e.tree code (p.policy r) r.isInline p.options.sharedName
  return if r.isInline then code else importLine r.virtualId ++ code

/-- The second phase. A module for which nothing waits is left as it is; otherwise nothing waits
any more. -/
def finalize (p : Plugin) (id code : String) (x : BuildContext) : Result String × BuildContext :=
  match x.results id with
  | none => (.ok code, x)
  | some e => (p.finished id e code, x.drop id)

def resolve? (id : String) (x : BuildContext) : Option String :=
  (x.stylesheets id).map fun _ => id

def load? (id : String) (x : BuildContext) : Option String := x.stylesheets id

end Plugin

end StyleExports
