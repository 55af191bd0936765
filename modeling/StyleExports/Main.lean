import StyleExports.Command.Basic

namespace StyleExports.Program

def usage : String :=
  "Usage: css-export <COMMAND>\n\n" ++
    "Commands:\n" ++
    "  build [PATHS]... [-o <OUT>] [-c <CONFIG>] [--inline]   Generate ES modules\n" ++
    "  check [PATHS]... [-c <CONFIG>]                         Check export selectors\n" ++
    "  init [PATH] [--force]                                  Write css-export.yaml\n" ++
    "  completions <SHELL>                                    Generate shell completions"

def version : String := "css-export 0.4.0"

def complaint : Command.Refusal → String
  | .help => usage
  | .version => version
  | .noCommand => usage
  | .unknownCommand => "error: unrecognized subcommand"
  | .unknownArgument => "error: unexpected argument found"
  | .missingArgument => "error: a required argument was not provided"
  | .invalidValue => "error: invalid value for an argument"
  | .tooManyValues => "error: unexpected value for an option"
  | .repeated => "error: an option cannot be used multiple times"

def errorLines (e : Error) : List String :=
  ("Error: " ++ e.code) :: ("  × " ++ e.message) ::
    match e.help with
    | some h => ["  help: " ++ h]
    | none => []

def placeOf (d : Disk) (p : Disk.Path) : Disk.Place :=
  p.parts.foldl
    (fun place part =>
      if Disk.Path.isTrivial part then place
      else if part = ['.', '.'] then place.dropLast
      else place ++ [part])
    (d.startOf p)

/-- Read a place and everything below it. -/
partial def readBelow (place : Disk.Place) (d : Disk) : IO Disk := do
  try
    let file ← IO.FS.realPath (Disk.pathOf place).text
    if ← file.isDir then
      let mut d := if place = [] then d else d.put place .directory
      for x in ← file.readDir do
        d ← readBelow (place ++ [x.fileName.toList]) d
      return d
    else
      let bytes ← IO.FS.readBinFile file
      return d.put place ((String.fromUTF8? bytes).elim .binary .file)
  catch _ => return d

/-- Read what a path leads to, with the directories above it, unless it is below a place that has
been read. -/
def readPath (read : List Disk.Place × Disk) (p : Disk.Path) : IO (List Disk.Place × Disk) := do
  let (done, d) := read
  let place := placeOf d p
  if done.any (·.isPrefixOf place) then return read
  let mut d := d
  for n in List.range place.length do
    let above := place.take n
    if above ≠ [] then
      try
        if ← (← IO.FS.realPath (Disk.pathOf above).text).isDir then d := d.put above .directory
      catch _ => pure ()
  return (place :: done, ← readBelow place d)

def writeChanges (before after : Disk) : IO Unit := do
  let changed := after.entries.filter fun (place, e) => before.entryAt? place != some e
  for (place, e) in changed.mergeSort fun a b => a.1.length ≤ b.1.length do
    match e with
    | .directory => IO.FS.createDirAll (Disk.pathOf place).text
    | .file s => IO.FS.writeFile (Disk.pathOf place).text s
    | .binary => pure ()

def runCommand (c : Command) : IO UInt32 := do
  let here ← IO.FS.realPath "."
  let start : Disk := ⟨[], placeOf ⟨[], []⟩ (.ofString here.toString)⟩
  let read ← (Disk.Path.ofString "." :: c.paths).foldlM readPath ([], start)
  let (_, d) ← (c.configuredPaths read.2).foldlM readPath read
  let o := c.run d
  writeChanges d o.disk
  o.lines.forM (IO.eprintln ·)
  match o.result with
  | .ok () => return 0
  | .error e =>
    (errorLines e).forM (IO.eprintln ·)
    return 1

end StyleExports.Program

def main (args : List String) : IO UInt32 := do
  match StyleExports.Command.ofArguments args with
  | .ok c => StyleExports.Program.runCommand c
  | .error r =>
    if r = .help ∨ r = .version then
      IO.println (StyleExports.Program.complaint r)
      return 0
    else
      IO.eprintln (StyleExports.Program.complaint r)
      return 2
