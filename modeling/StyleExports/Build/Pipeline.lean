import StyleExports.Build.Plugin

namespace StyleExports

/-- The code of a request on its way through a pipeline, and what was reported about it. -/
@[ext] structure Work where
  code : String
  diagnostics : Diagnostics
  deriving DecidableEq, Repr

/-- A stage works on the code of one request. Only the stages of a plugin use the build context. -/
inductive Stage where
  | transformer (name : String) (f : String → Work → Result Work)
  | extraction (p : Plugin)
  /-- A stage followed by the second phase of a plugin. -/
  | synthesis (p : Plugin) (inner : Stage)

namespace Stage

def name : Stage → String
  | .transformer name _ => name
  | .extraction _ => Plugin.stageName
  | .synthesis _ inner => inner.name

def run (id : String) : Stage → Work → BuildContext → Result Work × BuildContext
  | .transformer _ f, w, x => (f id w, x)
  | .extraction p, w, x =>
    match p.extract id w.code x with
    | (some e, x) => (.ok ⟨e.extract.passthrough, w.diagnostics ++ e.diagnostics⟩, x)
    | (none, x) => (.ok w, x)
  | .synthesis p inner, w, x =>
    match inner.run id w x with
    | (.error e, x) => (.error e, x)
    | (.ok w, x) =>
      if x.hasResult id then
        match p.finalize id w.code x with
        | (.error e, x) => (.error e, x)
        | (.ok code, x) => (.ok { w with code := code }, x)
      else (.ok w, x)

def compiler : Stage :=
  .transformer Compiler.stageName fun id w =>
    .ok { w with code := (Compiler.compile? (Request.ofId id) w.code).getD w.code }

end Stage

abbrev Pipeline := List Stage

namespace Pipeline

def names (ps : Pipeline) : List String := ps.map Stage.name

def position? (name : String) (ps : Pipeline) : Option Nat := ps.findIdx? (·.name == name)

def insertAt (n : Nat) (s : Stage) (ps : Pipeline) : Pipeline := ps.take n ++ s :: ps.drop n

/-- Replace the first stage with a name by what `f` makes of it. -/
def wrap (name : String) (f : Stage → Stage) : Pipeline → Pipeline
  | [] => []
  | s :: ps => if s.name = name then f s :: ps else s :: wrap name f ps

/-- Let all stages work, one after the other, up to the first that fails. -/
def runWork (id : String) : Pipeline → Work → BuildContext → Result Work × BuildContext
  | [], w, x => (.ok w, x)
  | s :: ps, w, x =>
    match s.run id w x with
    | (.error e, x) => (.error e, x)
    | (.ok w, x) => runWork id ps w x

def run (id code : String) (ps : Pipeline) (x : BuildContext) : Result Work × BuildContext :=
  ps.runWork id ⟨code, []⟩ x

/-- Put the second phase of a plugin behind the first stage with a name, and the first phase in
front of it. -/
def around (p : Plugin) (ps : Pipeline) : Pipeline :=
  match ps with
  | [] => []
  | s :: ps =>
    if s.name = p.downstream then .extraction p :: .synthesis p s :: ps else s :: around p ps

end Pipeline

/-- Install a plugin in a pipeline: its two phases are put around the first stage that it works
with. A pipeline in which a plugin is installed already stays as it is. -/
def Plugin.install (p : Plugin) (ps : Pipeline) : Result Pipeline :=
  if (ps.position? Plugin.stageName).isSome then .ok ps
  else if (ps.position? p.downstream).isSome then .ok (ps.around p)
  else .error (.noStage p.downstream)

end StyleExports
