import StyleExports.Text.Cut

namespace StyleExports.Command

open Text

inductive Refusal where
  | help
  | version
  | noCommand
  | unknownCommand
  | unknownArgument
  | missingArgument
  | invalidValue
  | tooManyValues
  /-- An option that may be given once was given again. -/
  | repeated
  deriving DecidableEq, Repr

inductive OptionKind where
  | help
  | version
  | flag
  | valued
  deriving DecidableEq, Repr

structure OptionSpec where
  long : List Char
  short : Option Char
  kind : OptionKind
  deriving DecidableEq, Repr

def OptionSpec.help : OptionSpec := ⟨"help".toList, some 'h', .help⟩

structure Grammar where
  options : List OptionSpec
  operands : Option Nat
  accepts : List Char → Bool

/-- What was read last. It is judged only when the next argument shows that it is complete. -/
inductive Pending where
  | nothing
  /-- An option that waits for its value, or has got it. -/
  | option (o : OptionSpec) (value : Option (List Char))
  | operands (values : List (List Char))
  deriving DecidableEq, Repr

structure Given where
  options : List (OptionSpec × List Char)
  operands : List (List Char)
  pending : Pending
  operandsOnly : Bool
  deriving DecidableEq, Repr

namespace Given

def nothing : Given := ⟨[], [], .nothing, false⟩

def has (g : Given) (o : OptionSpec) : Bool := (g.options.lookup o).isSome

def value? (g : Given) (o : OptionSpec) : Option (List Char) := g.options.lookup o

/-- Add an option. No value is empty. -/
def addOption (g : Given) (o : OptionSpec) (value : List Char) : Except Refusal Given :=
  if g.has o then .error .repeated
  else if o.kind = .valued ∧ value = [] then .error .invalidValue
  else .ok { g with options := g.options ++ [(o, value)] }

def settle (s : Grammar) (g : Given) : Except Refusal Given :=
  match g.pending with
  | .nothing => .ok g
  | .option _ none => .error .invalidValue
  | .option o (some v) => { g with pending := .nothing }.addOption o v
  | .operands vs =>
    if vs.all s.accepts then .ok { g with operands := g.operands ++ vs, pending := .nothing }
    else .error .invalidValue

def readSwitch (s : Grammar) (g : Given) (o : OptionSpec) : Except Refusal Given := do
  let g ← g.settle s
  match o.kind with
  | .help => .error .help
  | .version => .error .version
  | _ => g.addOption o []

/-- Read an option that needs a value, which may be given with it. -/
def readValued (s : Grammar) (g : Given) (o : OptionSpec) (value : Option (List Char)) :
    Except Refusal Given := do
  let g ← g.settle s
  match value with
  | some v => g.addOption o v
  | none => return { g with pending := .option o none }

def readLong (s : Grammar) (g : Given) (a : List Char) : Except Refusal Given :=
  let (name, value) : List Char × Option (List Char) :=
    match cut? (· == '=') a with
    | some (name, value) => (name, some value)
    | none => (a, none)
  match s.options.find? (·.long == name) with
  | none => .error .unknownArgument
  | some o =>
    if o.kind = .valued then g.readValued s o value
    else if value.isSome then .error .tooManyValues
    else g.readSwitch s o

/-- Read short options, without their hyphen. The first that needs a value takes the rest. -/
def readShort (s : Grammar) (g : Given) : List Char → Except Refusal Given
  | [] => .ok g
  | c :: a =>
    match s.options.find? (·.short == some c) with
    | none => .error .unknownArgument
    | some o =>
      if o.kind = .valued then
        g.readValued s o
          (match a with
          | [] => none
          | '=' :: v => some v
          | v => some v)
      else
        match g.readSwitch s o with
        | .error e => .error e
        | .ok g => g.readShort s a

def operandCount (g : Given) : Nat :=
  g.operands.length +
    match g.pending with
    | .operands vs => vs.length
    | _ => 0

def readOperand (s : Grammar) (g : Given) (a : List Char) : Except Refusal Given :=
  if s.operands.all (g.operandCount < ·) then
    match g.pending with
    | .operands vs => .ok { g with pending := .operands (vs ++ [a]) }
    | _ => (g.settle s).map fun g => { g with pending := .operands [a] }
  else .error .unknownArgument

def read (s : Grammar) (g : Given) (a : List Char) : Except Refusal Given :=
  if g.operandsOnly then g.readOperand s a
  else
    match a with
    | ['-', '-'] => .ok { g with operandsOnly := true }
    | '-' :: '-' :: a => g.readLong s a
    | '-' :: c :: a => g.readShort s (c :: a)
    | _ =>
      match g.pending with
      | .option o none => .ok { g with pending := .option o (some a) }
      | _ => g.readOperand s a

end Given

def Grammar.read (s : Grammar) (args : List (List Char)) : Except Refusal Given := do
  let g ← args.foldlM (Given.read s) Given.nothing
  g.settle s

end StyleExports.Command
