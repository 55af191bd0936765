import StyleExports.Build.Compiler
import StyleExports.Proofs.Fragment

namespace StyleExports

open Text EsModule

namespace Compiler

def constantItem (name value : List Char) : Item :=
  ⟨Fragment.constant name (Quoted.encode value), 0, 0, .declaration [String.ofList name]⟩

def valueItem (value : List Char) : Item :=
  ⟨"export default ".toList ++ value ++ [';'], 0, 0, .exportDefault none⟩

/-- The classes that can be exported under their own names. -/
def bindable (names : List (List Char)) : List (List Char) :=
  names.filter fun n => Identifier.isValid (String.ofList n)

def items (r : Request) (css : List Char) : EsModule :=
  if r.isInline then [valueItem (Quoted.encode css)]
  else if r.isClassMap then
    constantItem binding (withSuffixes r.path css) ::
      ((bindable (classes css)).map fun n => constantItem n (n ++ suffix r.path n)) ++
        [⟨classMap r.path (classes css), 0, 0, .exportDefault (some 0)⟩]
  else [constantItem binding css, valueItem binding]

theorem text_items (r : Request) (css : List Char) : (items r css).map (·.text) = lines r css := by
  unfold items lines
  split
  · rfl
  split
  · simp [classConstants, bindable, constantItem]
  · rfl

theorem toText_items (r : Request) (css : List Char) :
    toText (items r css) = (lines r css).flatMap fun line => line ++ ['\n'] := by
  rw [toText_eq_flatMap, ← text_items, List.flatMap_map]

def compiled (r : Request) (css : String) : String := String.ofList (toText (items r css.toList))

theorem compile?_eq {r : Request} (hs : r.isStylesheet = true) (hv : r.isVirtual = false)
    (css : String) : compile? r css = some (compiled r css) := by
  rw [compiled, toText_items]
  simp [compile?, hs, hv]

theorem stable_constantItem {name : List Char} (h : Identifier.isValid (String.ofList name) = true)
    (value : List Char) : (constantItem name value).Stable := by
  have stable := Fragment.stable_constant h (.leaf (String.ofList value))
  rwa [Value.literal, String.toList_ofList, String.toList_ofList] at stable

theorem isValid_binding : Identifier.isValid (String.ofList binding) = true := by decide

theorem stable_valueItem {c : Char} {s : List Char} (hc : isBlank c = false) (hb : c ≠ '{')
    (h : Scan.Takes (Scan.Settled []) (c :: s) (Scan.Settled [])) : (valueItem (c :: s)).Stable := by
  have stable := Fragment.stable_exportDefault hc h
  rwa [if_neg hb] at stable

theorem stable_quotedItem (css : List Char) : (valueItem (Quoted.encode css)).Stable :=
  stable_valueItem (by decide) (by decide) (Scan.takes_encode css)

theorem stable_bindingItem : (valueItem binding).Stable := by
  have word : ∀ c ∈ binding, Scan.isSoft [] c := by
    unfold Scan.isSoft
    exact forall_mem_of_all (by decide)
  exact stable_valueItem (by decide) (by decide) (Scan.takes_soft word)

theorem exists_classMap (path : List Char) (names : List (List Char)) : ∃ u, Balanced u ∧
    classMap path names = "export default ".toList ++ ('{' :: (u ++ ['}'])) ++ [';'] := by
  let row (n : List Char) : List Char :=
    Quoted.encode n ++ ':' :: ' ' :: Quoted.encode (n ++ suffix path n)
  have gap : Balanced [' '] := .of_all (forall_mem_of_all (by decide))
  have comma : Balanced [',', ' '] := .of_all (forall_mem_of_all (by decide))
  have colon : Balanced [':', ' '] := .of_all (forall_mem_of_all (by decide))
  have rows : ∀ w ∈ names.map row, Balanced w := by
    intro w hw
    obtain ⟨n, -, rfl⟩ := List.mem_map.mp hw
    exact (Balanced.encode n).append (colon.append (.encode _))
  refine ⟨' ' :: (join [',', ' '] (names.map row) ++ [' ']), ?_, ?_⟩
  · exact gap.append ((Balanced.join comma rows).append gap)
  · have opening : "export default \x7b ".toList = "export default ".toList ++ ['{', ' '] := rfl
    have closing : " \x7d;".toList = [' ', '}', ';'] := rfl
    unfold classMap
    rw [opening, closing]
    simp only [row, List.append_assoc, List.cons_append, List.nil_append]

theorem stable_classMap (path : List Char) (names : List (List Char)) :
    Item.Stable ⟨classMap path names, 0, 0, .exportDefault (some 0)⟩ := by
  obtain ⟨u, hu, ht⟩ := exists_classMap path names
  rw [ht]
  exact Fragment.stable_object hu

theorem mem_items {r : Request} {css : List Char} {i : Item} (h : i ∈ items r css) :
    i.Stable ∧ ((∃ n, i.kind = .declaration [n]) ∨ ∃ brace, i.kind = .exportDefault brace) := by
  unfold items at h
  split at h
  · obtain rfl := List.mem_singleton.mp h
    exact ⟨stable_quotedItem css, .inr ⟨_, rfl⟩⟩
  split at h
  · simp only [List.cons_append, List.mem_cons, List.mem_append, List.mem_map, List.not_mem_nil,
      or_false] at h
    rcases h with rfl | ⟨n, hn, rfl⟩ | rfl
    · exact ⟨stable_constantItem isValid_binding _, .inl ⟨_, rfl⟩⟩
    · exact ⟨stable_constantItem (List.mem_filter.mp hn).2 _, .inl ⟨_, rfl⟩⟩
    · exact ⟨stable_classMap _ _, .inr ⟨_, rfl⟩⟩
  · rcases List.mem_pair.mp h with rfl | rfl
    · exact ⟨stable_constantItem isValid_binding _, .inl ⟨_, rfl⟩⟩
    · exact ⟨stable_bindingItem, .inr ⟨_, rfl⟩⟩

/-- A compiled module is read as its lines. -/
theorem ofText?_compiled (r : Request) (css : String) :
    ofText? (compiled r css).toList = .ok (reread (items r css.toList)) := by
  rw [compiled, String.toList_ofList]
  exact ofText?_toText fun _ hi => (mem_items hi).1

section

variable (r : Request) (css : List Char)

/-- No declaration of a compiled module can be taken apart. -/
theorem isWhole_of_mem_reread (stays : String → Bool) :
    ∀ j ∈ reread (items r css), j.IsWhole stays := by
  intro j hj names hk
  obtain ⟨i, hi, hv⟩ := exists_of_mem_reread (fun _ hi => (mem_items hi).1) hj
  have seen : i.kind.seen = j.kind.seen := congrArg Prod.fst hv
  rw [hk] at seen
  rcases (mem_items hi).2 with ⟨n, hn⟩ | ⟨brace, hb⟩
  · rw [hn] at seen
    obtain rfl := Kind.declaration.inj seen
    cases hs : stays n <;> simp [hs]
  · rw [hb] at seen
    cases seen

theorem exportedNames_items : (items r css).exportedNames =
    if r.isInline then []
    else "__vite__css" ::
      if r.isClassMap then (bindable (classes css)).map String.ofList else [] := by
  have constants (ns : List (List Char)) : (ns.map fun n =>
      constantItem n (n ++ suffix r.path n)).flatMap Item.exportedNames = ns.map String.ofList := by
    rw [List.flatMap_map]
    exact List.flatMap_pure_eq_map String.ofList ns
  have name : String.ofList binding = "__vite__css" := by decide
  unfold items
  split
  · rfl
  split
  · rw [EsModule.exportedNames, List.flatMap_append, List.flatMap_cons, constants]
    change [String.ofList binding] ++ _ ++ [] = _
    rw [name, List.append_nil, List.singleton_append]
  · change [String.ofList binding] = _
    rw [name]

end

theorem mem_classes {n css : List Char} :
    n ∈ classes css ↔ ∃ s ∈ selectors (Stylesheet.Sheet.ofText css), n ∈ classNames s := by
  rw [classes, List.mem_eraseDups, List.mem_flatMap]

/-- A name that can be declared is exported by a compiled module if it is that of the stylesheet or of
a class. -/
theorem mem_exportedNames_compiled {r : Request} {css : List Char} {name : String}
    (h : Identifier.isValid name = true) :
    name ∈ (reread (items r css)).exportedNames ↔ r.isInline = false ∧
      (name = "__vite__css" ∨ r.isClassMap = true ∧
        ∃ s ∈ selectors (Stylesheet.Sheet.ofText css), name.toList ∈ classNames s) := by
  have class_iff : name ∈ (bindable (classes css)).map String.ofList ↔
      name.toList ∈ classes css := by
    simp only [List.mem_map, bindable, List.mem_filter]
    constructor
    · rintro ⟨n, ⟨hn, -⟩, rfl⟩
      rwa [String.toList_ofList]
    · intro hn
      refine ⟨name.toList, ⟨hn, ?_⟩, String.ofList_toList⟩
      rwa [String.ofList_toList]
  rw [exportedNames_reread fun _ hi => (mem_items hi).1, exportedNames_items, ← mem_classes,
    ← class_iff]
  cases r.isInline <;> cases r.isClassMap <;> simp

end Compiler

end StyleExports
