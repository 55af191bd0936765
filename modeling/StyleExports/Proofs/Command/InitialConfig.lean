import StyleExports.Command.Init
import StyleExports.Proofs.Yaml.Fields

namespace StyleExports.Command.InitRequest

open Yaml

/-- The configuration that the text of a first configuration is meant to give. -/
def initialConfig (sources : List (List Char)) : Config :=
  { Config.default with
    sources := if sources = [] ∨ sources = [['.']] then [] else sources.map String.ofList
    excludes := ["**/node_modules/*"] }

def standardEntries : List Entry :=
  [⟨[], "output".toList, .plain "dist".toList⟩,
    ⟨[], "excludes".toList, .list ["**/node_modules/*".toList]⟩,
    ⟨[], "is_global_module".toList, .plain "false".toList⟩,
    ⟨[], "enable_merge_exports".toList, .plain "false".toList⟩,
    ⟨[], "shared_export_name".toList, .plain "sharedData".toList⟩,
    ⟨[" none | lower-camel | upper-camel".toList], "property_name_transformer".toList,
      .plain "none".toList⟩,
    ⟨[], "additional_data".toList, .emptyMap⟩]

def entries (sources : List (List Char)) : List Entry :=
  if sources = [] ∨ sources = [['.']] then standardEntries
  else ⟨[], "sources".toList, .list sources⟩ :: standardEntries

theorem standardLines_eq : standardLines = standardEntries.flatMap Entry.text := by
  -- the whole text is long, so it is compared line by line
  have lines (a b c d e f g h : String) : (a ++ b ++ c ++ d ++ e ++ f ++ g ++ h).toList =
      a.toList ++ (b.toList ++ (c.toList ++ (d.toList ++ (e.toList ++ (f.toList ++
        (g.toList ++ h.toList)))))) := by
    simp only [String.toList_append, List.append_assoc]
  refine (lines ..).trans (eq_of_beq ?_)
  decide +kernel

theorem toList_configText (sources : List (List Char)) :
    (configText sources).toList = (entries sources).flatMap Entry.text := by
  rw [configText, String.toList_ofList, entries, sourceLines]
  split
  · rw [List.nil_append, standardLines_eq]
  · have name : "sources:\n".toList = "sources".toList ++ [':', '\n'] := by decide
    have begin : "  - \"".toList = [' ', ' ', '-', ' ', '"'] := by decide
    have ending : "\"\n".toList = ['"', '\n'] := by decide
    have item : (fun s => "  - \"".toList ++ s ++ "\"\n".toList) = Content.item := by
      funext s
      rw [begin, ending, List.append_assoc]
      rfl
    rw [List.flatMap_cons, standardLines_eq, item, name]
    simp [Entry.text, Content.text]

section

variable {sources : List (List Char)} (h : ∀ s ∈ sources, s.all isVerbatim = true)

include h

theorem isPlain_of_mem_entries {e : Entry} (he : e ∈ entries sources) : e.isPlain = true := by
  have standard : ∀ e ∈ standardEntries, e.isPlain = true := by decide
  unfold entries at he
  split at he
  · exact standard e he
  · rename_i some'
    rcases List.mem_cons.mp he with rfl | he
    · have word : isWord "sources".toList = true := by decide
      have proper : sources ≠ [] := fun empty => some' (.inl empty)
      simp only [Entry.isPlain, word, Content.isPlain, Bool.and_eq_true, List.all_nil,
        Bool.not_eq_true', List.isEmpty_eq_false_iff, List.all_eq_true, true_and]
      exact ⟨proper, fun s hs => List.all_eq_true.mp (h s hs)⟩
    · exact standard e he

omit h in
theorem known_of_mem_entries {e : Entry} (he : e ∈ entries sources) :
    Config.fieldNames.contains e.name = true := by
  have standard : ∀ e ∈ standardEntries, Config.fieldNames.contains e.name = true := by
    decide
  unfold entries at he
  split at he
  · exact standard e he
  · rcases List.mem_cons.mp he with rfl | he
    · have known : Config.fieldNames.contains "sources".toList = true := by decide
      exact known
    · exact standard e he

end

theorem texts?_list (items : List (List Char)) :
    Config.Field.texts? (Content.list items).node = some (items.map String.ofList) := by
  change (Content.itemNodes items).toList.mapM Config.Field.text? = _
  induction items with
  | nil => rfl
  | cons s items ih =>
    rw [Content.itemNodes, Nodes.toList, List.mapM_cons, ih]
    rfl

end StyleExports.Command.InitRequest

namespace StyleExports.Config

theorem ofFields?_cons_sources {f : Field} {texts : List String} (hf : f.texts? = some texts)
    {fs : List (List Char × Field)} (new : "sources".toList ∉ fs.map (·.1)) {c : Config}
    (h : ofFields? fs = some c) :
    ofFields? (("sources".toList, f) :: fs) = some { c with sources := texts } := by
  have other {α : Type} {name : String} (hn : name.toList ≠ "sources".toList) (otherwise : α)
      (read? : Field → Option α) : fieldOr (("sources".toList, f) :: fs) name otherwise read? =
        fieldOr fs name otherwise read? := by
    unfold fieldOr
    rw [List.lookup_cons, beq_eq_false_iff_ne.mpr hn]
  have own : fieldOr (("sources".toList, f) :: fs) "sources" default.sources Field.texts? =
      some texts := by
    unfold fieldOr
    rw [List.lookup_cons_self]
    exact hf
  have output : "output".toList ≠ "sources".toList := by decide
  have excludes : "excludes".toList ≠ "sources".toList := by decide
  have global : "is_global_module".toList ≠ "sources".toList := by decide
  have merging : "enable_merge_exports".toList ≠ "sources".toList := by decide
  have name : "shared_export_name".toList ≠ "sources".toList := by decide
  have casing : "property_name_transformer".toList ≠ "sources".toList := by decide
  have additional : "additional_data".toList ≠ "sources".toList := by decide
  have includes : "include".toList ≠ "sources".toList := by decide
  have distinct : (fs.map (·.1)).Nodup := by
    by_contra repeated
    simp [ofFields?, repeated] at h
  have distinct' : ((("sources".toList, f) :: fs).map (·.1)).Nodup := List.nodup_cons.mpr ⟨new, distinct⟩
  unfold ofFields? at h ⊢
  rw [if_neg (not_not.mpr distinct)] at h
  rw [if_neg (not_not.mpr distinct'), own, other output, other excludes, other global, other merging,
    other name, other casing, other additional, other includes]
  simp only [bind, Option.bind_eq_some_iff, pure, Option.some.injEq] at h
  obtain ⟨_, -, o, ho, e, he, g, hg, m, hm, n, hn, k, hk, a, ha, i, hi, rfl⟩ := h
  simp only [ho, he, hg, hm, hn, hk, ha, hi]
  rfl

end StyleExports.Config

namespace StyleExports.Command.InitRequest

open Yaml

theorem ofFields?_entries (sources : List (List Char)) :
    Config.ofFields? ((entries sources).map fun e => (e.name, e.content.node)) =
      some (initialConfig sources) := by
  have standard : Config.ofFields? (standardEntries.map fun e => (e.name, e.content.node)) =
      some (initialConfig []) := by
    decide +kernel
  unfold entries
  split
  · rename_i none'
    rw [standard, initialConfig, initialConfig, if_pos none', if_pos (.inl rfl)]
  · rename_i some'
    have new : "sources".toList ∉ (standardEntries.map fun e =>
        (e.name, (e.content.node : Config.Field))).map (·.1) := by
      decide
    rw [List.map_cons, Config.ofFields?_cons_sources (texts?_list sources) new standard,
      initialConfig, initialConfig, if_neg some']

theorem ofText_configText_eq (sources : List (List Char)) : Config.ofText (configText sources) =
    match Config.ofChars? ((entries sources).flatMap Entry.text) with
    | some c => .ok c
    | none => .error .badConfig :=
  congrArg (fun s => match Config.ofChars? s with
    | some c => (Except.ok c : Result Config)
    | none => .error .badConfig) (toList_configText sources)

/-- The text of a first configuration is read as what it was written for. -/
theorem ofText_configText {sources : List (List Char)}
    (h : ∀ s ∈ sources, s.all isVerbatim = true) :
    Config.ofText (configText sources) = .ok (initialConfig sources) := by
  have proper : entries sources ≠ [] := by
    unfold entries standardEntries
    split <;> exact List.cons_ne_nil _ _
  obtain ⟨d, read, fields⟩ := Yaml.fields?_entries proper (fun e he => isPlain_of_mem_entries h he)
    (fun e he => known_of_mem_entries he)
  have shown : 'o' ∈ (entries sources).flatMap Entry.text := by
    refine List.mem_flatMap.mpr ⟨⟨[], "output".toList, .plain "dist".toList⟩, ?_, by decide⟩
    unfold entries standardEntries
    split
    · exact List.mem_cons_self
    · exact List.mem_cons_of_mem _ List.mem_cons_self
  have blank : Text.isAllBlank ((entries sources).flatMap Entry.text) = false :=
    List.all_eq_false.mpr ⟨'o', shown, by decide⟩
  rw [ofText_configText_eq]
  simp only [Config.ofChars?, blank, Bool.false_eq_true, if_false, read, fields, bind, Option.bind,
    ofFields?_entries]

theorem options_initialConfig (sources : List (List Char)) :
    (initialConfig sources).options = .ok ⟨false, false, "sharedData", none, .empty,
      Config.accepts []⟩ := by
  have valid : Identifier.isValid Options.defaultSharedName = true := by decide
  simp only [Config.options, initialConfig, Config.default, Config.readIncludes, bind, Except.bind,
    Options.check, valid, if_true]
  rfl

theorem effectiveSources_initialConfig (sources : List (List Char)) :
    (initialConfig sources).effectiveSources =
      if sources = [] then ["."] else sources.map String.ofList := by
  unfold Config.effectiveSources initialConfig
  by_cases none' : sources = []
  · simp [none']
  by_cases here : sources = [['.']]
  · simp [here]
  · simp [none', here]

end StyleExports.Command.InitRequest
