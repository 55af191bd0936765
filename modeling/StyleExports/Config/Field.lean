import StyleExports.Config.Basic
import StyleExports.Text.Blank
import StyleExports.Yaml.Document
import StyleExports.Yaml.Schema

namespace StyleExports.Config

open Yaml

abbrev Field := Node Empty

namespace Field

def text? : Field → Option String
  | .scalar s => some (String.ofList s.text)
  | _ => none

def isBlank : Field → Bool
  | .scalar s => s.style == .plain && s.text.isEmpty
  | _ => false

/-- A list of texts. It may be left empty. -/
def texts? (f : Field) : Option (List String) :=
  match f with
  | .list _ items => items.toList.mapM text?
  | _ => if f.isBlank then some [] else none

/-- A truth value, in a plain scalar or in a literal one with the tag of truth values. -/
def truth? : Field → Option Bool
  | .scalar s =>
    if s.style = .plain ∨ (s.style = .literal ∧ s.tag = some "tag:yaml.org,2002:bool".toList) then
      Yaml.truth? s.text
    else none
  | _ => none

/-- The name of the variant that a tag selects: the tag is one of the document's own, and nothing
follows it. -/
def variant? (s : Scalar) : Option (List Char) :=
  match s.tag with
  | some ('!' :: name) => if s.style = .plain ∧ nullTexts.contains s.text then some name else none
  | _ => some s.text

def casing? : Field → Option (Option Casing)
  | .scalar s =>
    match variant? s with
    | none => none
    | some name =>
      if name = "none".toList then some none
      else if name = "lower-camel".toList then some (some .lowerCamel)
      else if name = "upper-camel".toList then some (some .upperCamel)
      else none
  | _ => none

def isOwnTag : Option (List Char) → Bool
  | some ('!' :: _) => true
  | _ => false

def otherTags : List (List Char) :=
  ["bool", "int", "float", "null"].map fun s => ("tag:yaml.org,2002:" ++ s).toList

def leaf? (s : Scalar) : Option String :=
  match s.tag with
  | some tag =>
    if isOwnTag (some tag) ∨ otherTags.contains tag then none else some (String.ofList s.text)
  | none =>
    if s.style = .plain ∧ !isPlainText s.text then none else some (String.ofList s.text)

/-- The entries of a map of data. Its keys are read by `key?`, and those of the maps in it are
texts like all leaves. -/
def entries? (key? : Scalar → Option String) : Nodes Empty → Option (List (String × Value))
  | .none => some []
  | .scalar k (.scalar s rest) => do
    let k ← key? k
    let s ← leaf? s
    let es ← entries? key? rest
    return (k, .leaf s) :: es
  | .scalar k (.map tag inner rest) => do
    let k ← key? k
    let inner ← if isOwnTag tag then none else entries? leaf? inner
    let es ← entries? key? rest
    return (k, .node (.ofList inner)) :: es
  | _ => none

/-- A map of data. It may be left empty. Of entries with one key the last counts, in the place of
the first. -/
def tree? (f : Field) : Option Tree :=
  match f with
  | .map _ entries => (entries? (fun k => some (String.ofList k.text)) entries).map .ofList
  | _ => if f.isBlank then some .empty else none

end Field

def fieldNames : List (List Char) :=
  ["sources", "output", "excludes", "is_global_module", "enable_merge_exports",
    "shared_export_name", "property_name_transformer", "additional_data", "include"].map
      String.toList

def fieldOr {α : Type} (fs : List (List Char × Field)) (name : String) (otherwise : α)
    (read? : Field → Option α) : Option α :=
  match fs.lookup name.toList with
  | some f => read? f
  | none => some otherwise

/-- Each field may be given once, and a field that is not given has its default. -/
def ofFields? (fs : List (List Char × Field)) : Option Config := do
  if ¬(fs.map (·.1)).Nodup then none
  let sources ← fieldOr fs "sources" default.sources Field.texts?
  let output ← fieldOr fs "output" default.output Field.text?
  let excludes ← fieldOr fs "excludes" default.excludes Field.texts?
  let global ← fieldOr fs "is_global_module" default.global Field.truth?
  let merging ← fieldOr fs "enable_merge_exports" default.merging Field.truth?
  let sharedName ← fieldOr fs "shared_export_name" default.sharedName Field.text?
  let casing ← fieldOr fs "property_name_transformer" default.casing Field.casing?
  let additional ← fieldOr fs "additional_data" default.additional Field.tree?
  let includes ← fieldOr fs "include" default.includes Field.texts?
  return { sources, output, excludes, global, merging, sharedName, casing, additional, includes }

def ofChars? (s : List Char) : Option Config :=
  if Text.isAllBlank s then some default
  else do
    let d ← Document.ofText? s
    let fs ← d.fields? fieldNames.contains
    ofFields? fs

def ofText (s : String) : Result Config :=
  match ofChars? s.toList with
  | some c => .ok c
  | none => .error .badConfig

end StyleExports.Config
