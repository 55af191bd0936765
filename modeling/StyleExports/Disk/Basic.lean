import StyleExports.Disk.Path

namespace StyleExports

open Text

/-- Where something is: the names that lead to it from the root. -/
abbrev Disk.Place := List (List Char)

inductive Disk.Entry where
  | directory
  | file (content : String)
  | binary
  deriving DecidableEq, Repr

inductive Disk.Fault where
  | notFound
  | exists
  | notDirectory
  | isDirectory
  | nameTooLong
  /-- A path with a character that no path may hold. -/
  | badName
  | notText
  deriving DecidableEq, Repr

def Disk.Fault.message : Disk.Fault → String
  | .notFound => "No such file or directory (os error 2)"
  | .exists => "File exists (os error 17)"
  | .notDirectory => "Not a directory (os error 20)"
  | .isDirectory => "Is a directory (os error 21)"
  | .nameTooLong => "File name too long (os error 36)"
  | .badName => "file name contained an unexpected NUL byte"
  | .notText => "stream did not contain valid UTF-8"

structure Disk where
  entries : List (Disk.Place × Disk.Entry)
  here : Disk.Place
  deriving DecidableEq, Repr

namespace Disk

def entryAt? (d : Disk) (place : Place) : Option Entry :=
  if place = [] then some .directory else d.entries.lookup place

def put (d : Disk) (place : Place) (e : Entry) : Disk :=
  { d with entries := (place, e) :: d.entries.filter (·.1 != place) }

theorem lookup_filter_ne {l : List (Place × Entry)} {a b : Place} (h : b ≠ a) :
    (l.filter (·.1 != a)).lookup b = l.lookup b := by
  induction l with
  | nil => rfl
  | cons x l ih =>
    obtain ⟨k, e⟩ := x
    by_cases hk : k = a
    · have hb : (b == k) = false := by rw [hk]; simpa using h
      rw [List.filter_cons_of_neg (by simp [hk]), ih, List.lookup_cons, hb]
    · rw [List.filter_cons_of_pos (by simpa using hk), List.lookup_cons, List.lookup_cons, ih]

/-- Putting something at a place changes nothing elsewhere. -/
theorem entryAt?_put (d : Disk) {a : Place} (e : Entry) (b : Place) (ha : a ≠ []) :
    (d.put a e).entryAt? b = if b = a then some e else d.entryAt? b := by
  by_cases h : b = a
  · subst h
    simp [entryAt?, put, ha]
  · have hb : (b == a) = false := by simpa using h
    by_cases hn : b = []
    · simp [entryAt?, hn, Ne.symm ha]
    · simp [entryAt?, put, hn, h, List.lookup_cons, hb, lookup_filter_ne h]

def isDirectoryAt (d : Disk) (place : Place) : Bool := d.entryAt? place == some .directory

def nameBound : Nat := 255

def pathBound : Nat := 4096

def follow (d : Disk) (place : Place) (part : List Char) : Except Fault Place :=
  if !d.isDirectoryAt place then .error .notDirectory
  else if Path.isTrivial part then .ok place
  else if part = ['.', '.'] then .ok place.dropLast
  else if nameBound < size part then .error .nameTooLong
  else if (d.entryAt? (place ++ [part])).isSome then .ok (place ++ [part])
  else .error .notFound

def followAll (d : Disk) (place : Place) (parts : List (List Char)) : Except Fault Place :=
  parts.foldlM d.follow place

def ask (p : Path) : Except Fault Unit :=
  if p.chars = [] then .error .notFound
  else if p.chars.contains '\x00' then .error .badName
  else if pathBound ≤ size p.chars then .error .nameTooLong
  else .ok ()

def startOf (d : Disk) (p : Path) : Place := if p.isAbsolute then [] else d.here

def place? (d : Disk) (p : Path) : Except Fault Place := do
  ask p
  d.followAll (d.startOf p) p.parts

def find? (d : Disk) (p : Path) : Option Entry :=
  match d.place? p with
  | .ok place => d.entryAt? place
  | .error _ => none

def has (d : Disk) (p : Path) : Bool := (d.find? p).isSome

def hasDirectory (d : Disk) (p : Path) : Bool := d.find? p == some .directory

def hasFile (d : Disk) (p : Path) : Bool := d.has p && !d.hasDirectory p

def read (d : Disk) (p : Path) : Except Fault String := do
  let place ← d.place? p
  match d.entryAt? place with
  | some (.file s) => return s
  | some .binary => .error .notText
  | some .directory => .error .isDirectory
  | none => .error .notFound

/-- The directory in which a path names something, and the name. The path cannot name anything
new if the name is missing. -/
def newPlace (d : Disk) (p : Path) (parts : List (List Char)) :
    Except Fault (Place × List Char) := do
  ask p
  let place ← d.followAll (d.startOf p) parts.dropLast
  if !d.isDirectoryAt place then .error .notDirectory
  else return (place, parts.getLast?.getD [])

/-- Whether the last part of a path names nothing of its own. -/
def isNameless (s : List Char) : Bool := Path.isTrivial s || s == ['.', '.']

def makeDirectory (d : Disk) (p : Path) : Except Fault Disk := do
  let (place, name) ← d.newPlace p (dropEndWhile (· == []) p.parts)
  if isNameless name then .error .exists
  else if nameBound < size name then .error .nameTooLong
  else if (d.entryAt? (place ++ [name])).isSome then .error .exists
  else return d.put (place ++ [name]) .directory

/-- Write a file. A file that is there is overwritten. -/
def write (d : Disk) (p : Path) (content : String) : Except Fault Disk := do
  let (place, name) ← d.newPlace p p.parts
  if isNameless name then .error .isDirectory
  else if nameBound < size name then .error .nameTooLong
  else if d.isDirectoryAt (place ++ [name]) then .error .isDirectory
  else return d.put (place ++ [name]) (.file content)

def ensureDirectory (d : Disk) (p : Path) : Except Fault Disk :=
  match d.makeDirectory p with
  | .ok d => .ok d
  | .error e => if d.hasDirectory p then .ok d else .error e

/-- Why a request failed, if it did, and the file system after it. -/
abbrev Attempt := Option Fault × Disk

/-- A request that changes nothing if it fails. -/
def attempt (d : Disk) : Except Fault Disk → Attempt
  | .ok d => (none, d)
  | .error fault => (some fault, d)

/-- Make a directory and up to `n` directories above it that are missing. -/
def ensureAbove : Nat → Disk → Path → Attempt
  | 0, d, p => d.attempt (d.ensureDirectory p)
  | n + 1, d, p =>
    if p.chars = [] then (none, d)
    else
      match d.ensureDirectory p, p.parent? with
      | .error .notFound, some q =>
        match ensureAbove n d q with
        | (none, d) => d.attempt (d.ensureDirectory p)
        | failed => failed
      | r, _ => d.attempt r

/-- Make a directory and all directories above it that are missing. The empty path asks for
nothing. Directories that were made before the request failed stay. -/
def ensureDirectories (d : Disk) (p : Path) : Attempt := ensureAbove (p.parts.length + 1) d p

/-- The places below a place that hold files, as seen from it. A directory comes where its name
stands among those beside it. -/
def filesBelow (d : Disk) (place : Place) : List Place :=
  (d.entries.filterMap fun (a, e) =>
    if e = .directory then none
    else
      match place.isPrefixOf? a with
      | some [] => none
      | r => r).mergeSort (lexLe Text.le)

/-- The files that a path leads to: itself, or all files below it. -/
def walk (d : Disk) (p : Path) : List Path :=
  match d.place? p with
  | .error _ => []
  | .ok place =>
    if d.isDirectoryAt place then
      (d.filesBelow place).map fun names => names.foldl (fun p name => p.join ⟨name⟩) p
    else [p]

def pathOf (place : Place) : Path := ⟨'/' :: join ['/'] place⟩

/-- A path as it is shown: from the working directory on, if it lies below it. -/
def shown (d : Disk) (p : Path) : String :=
  match (pathOf d.here).strip? p with
  | some q => if q.chars = [] then "." else q.text
  | none => p.text

end Disk

end StyleExports
