import Mathlib.Data.List.Forall2
import StyleExports.Proofs.Extraction.Rejection
import StyleExports.Proofs.Passthrough
import StyleExports.Proofs.Stylesheet.Printing
import StyleExports.Proofs.Tree.Preorder

namespace StyleExports

open Text Stylesheet

abbrev Blanks := { b : List Char // ∀ c ∈ b, isSpace c = true }

/-- What is left open when a node is printed: the blanks in front of its rule, and the marker. -/
structure Look where
  gap : Blanks
  marker : Export.Marker

namespace Tree

def leavesText (es : List (String × String)) : List Char :=
  es.flatMap (fun e => ' ' :: (declarationText e.1 e.2 ++ [';'])) ++ [' ']

def Node.print (l : Look) (n : Node) : List Char :=
  l.gap.1 ++ (Export.preludeText l.marker n.path ++ '{' :: (leavesText n.leaves ++ ['}']))

/-- The export rules of nodes, one after the other; `looks` counts them. -/
def printAll (looks : Nat → Look) : Nat → List Node → List Char
  | _, [] => []
  | i, n :: ns => n.print (looks i) ++ printAll looks (i + 1) ns

/-- The export rules of all nodes of a tree in pre-order. -/
def print (looks : Nat → Look) (t : Tree) : List Char := printAll looks 0 t.nodes

/-- All names and values of a tree can be printed. -/
def Printable : Tree → Prop
  | .empty => True
  | .leaf k x rest => IsKey k ∧ IsText x ∧ rest.Printable
  | .node k u rest => IsKey k ∧ u.Printable ∧ rest.Printable

def decidablePrintable : (t : Tree) → Decidable t.Printable
  | .empty => inferInstanceAs (Decidable True)
  | .leaf k x rest =>
    have := decidablePrintable rest
    inferInstanceAs (Decidable (IsKey k ∧ IsText x ∧ rest.Printable))
  | .node k u rest =>
    have := decidablePrintable u
    have := decidablePrintable rest
    inferInstanceAs (Decidable (IsKey k ∧ u.Printable ∧ rest.Printable))

instance : DecidablePred Printable := decidablePrintable

structure Node.Printable (n : Node) : Prop where
  path : ∀ k ∈ n.path, IsKey k
  leaves : ∀ e ∈ n.leaves, IsKey e.1 ∧ IsText e.2

theorem Printable.leaves {t : Tree} (h : t.Printable) :
    ∀ e ∈ t.leaves, IsKey e.1 ∧ IsText e.2 := by
  induction t with
  | empty => exact fun _ he => absurd he List.not_mem_nil
  | leaf k x rest ih => exact List.forall_mem_cons.mpr ⟨⟨h.1, h.2.1⟩, ih h.2.2⟩
  | node k u rest _ ih => exact ih h.2.2

theorem Printable.nodesBelow {t : Tree} (h : t.Printable) {path : List String}
    (hp : ∀ k ∈ path, IsKey k) : ∀ n ∈ t.nodesBelow path, n.Printable := by
  induction t generalizing path with
  | empty => exact fun _ hn => absurd hn List.not_mem_nil
  | leaf k x rest ih => exact ih h.2.2 hp
  | node k u rest ihu ihr =>
    have inner : ∀ j ∈ path ++ [k], IsKey j :=
      List.forall_mem_append.mpr ⟨hp, List.forall_mem_singleton.mpr h.1⟩
    refine List.forall_mem_cons.mpr ⟨⟨inner, h.2.1.leaves⟩, ?_⟩
    exact List.forall_mem_append.mpr ⟨ihu h.2.1 inner, ihr h.2.2 hp⟩

theorem Printable.nodes {t : Tree} (h : t.Printable) : ∀ n ∈ t.nodes, n.Printable :=
  List.forall_mem_cons.mpr ⟨⟨by simp, h.leaves⟩, h.nodesBelow (by simp)⟩

end Tree

namespace Stylesheet.Sheet

open StyleExports.Tree

/-- The sheet of the inside of a printed block. -/
def ofLeaves : List (String × String) → Sheet
  | [] => .piece (.blank [' ']) .empty
  | e :: es =>
    .piece (.blank [' ']) (.piece (.statement (declarationText e.1 e.2) true) (ofLeaves es))

/-- The sheet of printed nodes and of the blanks behind them. -/
def ofNodes (looks : Nat → Look) (last : Blanks) : Nat → List Node → Sheet
  | _, [] => .piece (.blank last.1) .empty
  | i, n :: ns =>
    .piece (.blank (looks i).gap.1) (.block (Export.preludeText (looks i).marker n.path)
      (ofLeaves n.leaves) true (ofNodes looks last (i + 1) ns))

variable {looks : Nat → Look} {last : Blanks} {i : Nat} {ns : List Node} {n : Node}
variable {es : List (String × String)}

theorem toText_ofLeaves (es : List (String × String)) : (ofLeaves es).toText = leavesText es := by
  induction es with
  | nil => rfl
  | cons e es ih =>
    rw [ofLeaves, toText, toText, ih]
    simp [leavesText, Piece.toText]

theorem toText_ofNodes (looks : Nat → Look) (last : Blanks) (i : Nat) (ns : List Node) :
    (ofNodes looks last i ns).toText = printAll looks i ns ++ last.1 := by
  induction ns generalizing i with
  | nil => exact List.append_nil _
  | cons n ns ih =>
    rw [ofNodes, toText, toText, ih, toText_ofLeaves]
    simp [printAll, Node.print, Piece.toText, closingText]

theorem nests_ofLeaves (es : List (String × String)) : Nests .closed (ofLeaves es) := by
  induction es with
  | nil => exact ⟨by simp, trivial⟩
  | cons e es ih => exact ⟨by simp, by simp, ih⟩

theorem nests_ofNodes (looks : Nat → Look) (last : Blanks) (i : Nat) (ns : List Node) :
    Nests .top (ofNodes looks last i ns) := by
  induction ns generalizing i with
  | nil => exact ⟨by simp, trivial⟩
  | cons n ns ih => exact ⟨by simp, nests_ofLeaves n.leaves, ih _⟩

theorem legible_ofLeaves (h : ∀ e ∈ es, IsKey e.1 ∧ IsText e.2) {ts : List Token}
    (ht : Legible ts) : Legible ((ofLeaves es).flatten ++ ts) := by
  induction es with
  | nil => exact ⟨.inl (Token.settled_blank (List.forall_mem_singleton.mpr rfl)), ht⟩
  | cons e es ih =>
    rw [List.forall_mem_cons] at h
    have item := isItem_declarationText h.1.1 h.1.2
    exact ⟨.inl (Token.settled_blank (List.forall_mem_singleton.mpr rfl)),
      .inl (Token.settled_statement item), ih h.2⟩

theorem legible_ofNodes (h : ∀ n ∈ ns, n.Printable) :
    Legible (ofNodes looks last i ns).flatten := by
  induction ns generalizing i with
  | nil => exact ⟨.inl (Token.settled_blank last.2), trivial⟩
  | cons n ns ih =>
    rw [List.forall_mem_cons] at h
    have item := Export.isItem_preludeText (looks i).marker h.1.path
    have rest : Legible (closingTokens true ++ (ofNodes looks last (i + 1) ns).flatten) :=
      legible_closing (ih h.2) true
    exact ⟨.inl (Token.settled_blank (looks i).gap.2), .inl (Token.settled_opening item),
      legible_ofLeaves h.1.leaves rest⟩

theorem isRead_ofNodes (looks : Nat → Look) (last : Blanks) (i : Nat)
    (h : ∀ n ∈ ns, n.Printable) : (ofNodes looks last i ns).IsRead :=
  ⟨nests_ofNodes looks last i ns, legible_ofNodes h⟩

theorem declarations_ofLeaves (h : ∀ e ∈ es, IsKey e.1 ∧ IsText e.2) (k : Nat) :
    ((ofLeaves es).declarations k).map (·.declaration) =
      es.map fun e => ⟨e.1, e.2, false⟩ := by
  induction es generalizing k with
  | nil => rfl
  | cons e es ih =>
    rw [List.forall_mem_cons] at h
    have declared (r : Range) : (Piece.statement (declarationText e.1 e.2) true).declared r =
        [⟨⟨e.1, e.2, false⟩, r⟩] := by
      rw [Piece.declared, statement_declarationText h.1.1 h.1.2]
    have blank (r : Range) : (Piece.blank [' ']).declared r = [] := rfl
    rw [ofLeaves, declarations_piece, declarations_piece, declared, blank, List.nil_append,
      List.singleton_append, List.map_cons, ih h.2, List.map_cons]

theorem hasRules_ofLeaves (h : ∀ e ∈ es, IsKey e.1 ∧ IsText e.2) :
    (ofLeaves es).hasRules = false := by
  induction es with
  | nil => rfl
  | cons e es ih =>
    rw [List.forall_mem_cons] at h
    change ((AtRule.ofText? (declarationText e.1 e.2)).isSome || (ofLeaves es).hasRules) = false
    rw [atRule_declarationText h.1.1, ih h.2]
    rfl

theorem unclosed_ofLeaves (es : List (String × String)) : (ofLeaves es).unclosed = 0 := by
  induction es with
  | nil => rfl
  | cons e es ih => exact ih

theorem unclosed_ofNodes (looks : Nat → Look) (last : Blanks) (i : Nat) (ns : List Node) :
    (ofNodes looks last i ns).unclosed = 0 := by
  induction ns generalizing i with
  | nil => rfl
  | cons n ns ih =>
    rw [ofNodes, unclosed, unclosed, ih, unclosed_ofLeaves]
    rfl

theorem passthrough_ofNodes (h : ∀ n ∈ ns, n.Printable) :
    (ofNodes looks last i ns).passthrough = [] := by
  induction ns generalizing i with
  | nil => rfl
  | cons n ns ih =>
    rw [List.forall_mem_cons] at h
    have selector := Export.exportSelector?_preludeText (looks i).marker h.1.path
    rw [ofNodes, passthrough, passthrough_block, selector, ih h.2]
    rfl

theorem passthrough_tidy (s : Sheet) : s.tidy.passthrough = [] ↔ s.passthrough = [] := by
  refine tidy_induction (motive := fun a s => a.passthrough = [] ↔ s.passthrough = [])
    Iff.rfl ?_ ?_ ?_ ?_ s
  · exact fun _ _ ih => ih
  · intro t rest _
    simp [passthrough]
  · intro p rest ih
    cases p with
    | blank b => exact ih
    | _ => simp [passthrough]
  · intro prelude inner closed rest _ ih
    rw [passthrough_block, passthrough_block, hasExports_tidy, isExportsOnly_tidy,
      List.append_eq_nil_iff, List.append_eq_nil_iff, ih]
    refine and_congr_left fun _ => ?_
    split
    · rfl
    · simp

end Stylesheet.Sheet

namespace ExportRule

/-- A rule declares a node: it has the path of the node and declares its leaves. -/
structure Declares (n : Tree.Node) (r : ExportRule) : Prop where
  path : r.selector.path = Export.pathText n.path
  declarations : r.declarations = n.leaves.map fun e => ⟨e.1, e.2, false⟩
  nested : r.nested = false

variable {n : Tree.Node} {r : ExportRule} {t : Tree}

theorem Declares.issues (h : r.Declares n) (hn : n.Printable) : r.issues = [] := by
  rw [ExportRule.issues, h.path, Export.issues_pathText hn.path]

theorem Declares.path_eq (h : r.Declares n) (hn : n.Printable) : r.path none = n.path := by
  have segments : r.selector.segments = n.path := by
    have printed := Export.segments_pathText (m := r.selector.marker) hn.path
    rw [← h.path] at printed
    exact printed
  have named : ∀ k ∈ n.path, decide (k ≠ "") = true := by
    intro k hk
    simpa using (hn.path k hk).1
  have renamed : n.path.map (rename none) = n.path := List.map_id n.path
  rw [ExportRule.path, segments, renamed, List.filter_eq_self.mpr named]

theorem Declares.bindings (h : r.Declares n) (hn : n.Printable) :
    r.bindings none = n.leaves.map fun e => (e.1, .leaf e.2) := by
  have named : ∀ e ∈ n.leaves.map fun e => (e.1, Value.leaf e.2), decide (e.1 ≠ "") = true := by
    intro e he
    obtain ⟨d, hd, rfl⟩ := List.mem_map.mp he
    simpa using (hn.leaves d hd).1.1
  rw [ExportRule.bindings, h.declarations, List.map_map]
  exact List.filter_eq_self.mpr named

theorem Declares.write (h : r.Declares n) (hn : n.Printable) (t : Tree) :
    r.write none t = n.write t := by
  have accepted : r.isAccepted = true := by
    rw [isAccepted, h.issues hn]
    rfl
  rw [ExportRule.write, if_pos accepted, h.path_eq hn, h.bindings hn]
  rfl

theorem Declares.diagnostics (h : r.Declares n) (hn : n.Printable) (source : List Char)
    (hc : t.collision? n.path = none) : r.diagnostics source none t = [] := by
  have path : r.pathDiagnostics source none = [] := by
    rw [pathDiagnostics, h.issues hn]
    rfl
  have write : r.writeDiagnostics source none t = [] := by
    simp [writeDiagnostics, h.path_eq hn, hc, h.nested]
  rw [ExportRule.diagnostics, path, write]
  simp

theorem declares_unplaced : r.unplaced.Declares n ↔ r.Declares n :=
  ⟨fun h => ⟨h.path, h.declarations, h.nested⟩, fun h => ⟨h.path, h.declarations, h.nested⟩⟩

end ExportRule

namespace Extraction

open StyleExports.Tree

variable {rules : List ExportRule} {ns : List Node}

/-- Rules that declare nodes write them and say nothing, unless a path meets a leaf. -/
theorem writeAll_of_declares (h : List.Forall₂ ExportRule.Declares ns rules)
    (hn : ∀ n ∈ ns, n.Printable) (source : List Char) (t : Tree) :
    writeAll none rules t = Node.writeAll ns t ∧
      (Node.Clear ns t → diagnosticsOn source none rules t = []) := by
  induction h generalizing t with
  | nil => exact ⟨rfl, fun _ => rfl⟩
  | @cons n r ns rules declares _ ih =>
    rw [List.forall_mem_cons] at hn
    have written := declares.write hn.1 t
    have rest := ih hn.2 (n.write t)
    constructor
    · change writeAll none rules (r.write none t) = _
      rw [written, rest.1]
      rfl
    · intro clear
      rw [diagnosticsOn, declares.diagnostics hn.1 source clear.1, written, rest.2 clear.2]
      rfl

/-- Printed nodes are declared by the rules that are found. -/
theorem declares_ofNodes (looks : Nat → Look) (last : Blanks) (i : Nat)
    (hn : ∀ n ∈ ns, n.Printable) (k : Nat) :
    List.Forall₂ ExportRule.Declares ns ((Sheet.ofNodes looks last i ns).exportRules k) := by
  induction ns generalizing i k with
  | nil => exact .nil
  | cons n ns ih =>
    rw [List.forall_mem_cons] at hn
    have selector := Export.exportSelector?_preludeText (looks i).marker hn.1.path
    rw [Sheet.ofNodes, Sheet.exportRules, Sheet.exportRules, selector]
    refine .cons ⟨rfl, ?_, ?_⟩ (ih (i + 1) hn.2 _)
    · exact Sheet.declarations_ofLeaves hn.1.leaves _
    · exact Sheet.hasRules_ofLeaves hn.1.leaves

theorem declares_of_unplaced {others : List ExportRule}
    (same : rules.map ExportRule.unplaced = others.map ExportRule.unplaced)
    (h : List.Forall₂ ExportRule.Declares ns others) :
    List.Forall₂ ExportRule.Declares ns rules := by
  have unplaced (rules : List ExportRule) : List.Forall₂ ExportRule.Declares ns rules ↔
      List.Forall₂ ExportRule.Declares ns (rules.map ExportRule.unplaced) := by
    rw [List.forall₂_map_right_iff]
    simp only [ExportRule.declares_unplaced]
  rw [unplaced, same, ← unplaced]
  exact h

/-- A tree that was printed is extracted again: as a map of maps the same, in each node the leaves
first. Nothing passes through, and nothing is said. -/
theorem ofTextWith_print {t : Tree} (hd : t.Distinct) (hp : t.Printable) (looks : Nat → Look)
    (last : Blanks) :
    ofTextWith none (t.print looks ++ last.1) = ⟨⟨t.leavesFirst, ""⟩, []⟩ ∧
      t.leavesFirst.Same t := by
  have printable := hp.nodes
  have read := Sheet.tidy_ofText_toText (Sheet.isRead_ofNodes looks last 0 printable)
  rw [Sheet.toText_ofNodes] at read
  change (Sheet.ofText (t.print looks ++ last.1)).tidy = _ at read
  generalize t.print looks ++ last.1 = s at read ⊢
  have rules : List.Forall₂ ExportRule.Declares t.nodes ((Sheet.ofText s).exportRules 0) := by
    refine declares_of_unplaced ?_ (declares_ofNodes looks last 0 printable 0)
    rw [← Sheet.exportRules_tidy _ 0 0, read, Sheet.exportRules_tidy _ 0 0]
  obtain ⟨clear, built⟩ := writeAll_nodes hd
  obtain ⟨written, silent⟩ := writeAll_of_declares rules printable s .empty
  have passed : (Sheet.ofText s).passthrough = [] := by
    rw [← Sheet.passthrough_tidy, read, Sheet.passthrough_tidy]
    exact Sheet.passthrough_ofNodes printable
  have closed : unclosedDiagnostics s = [] := by
    rw [unclosedDiagnostics, unclosedOffsets, ← Sheet.unclosed_tidy, read, Sheet.unclosed_tidy,
      Sheet.unclosed_ofNodes]
    rfl
  refine ⟨?_, same_leavesFirst hd⟩
  simp only [ofTextWith]
  rw [written, built, passed, silent clear, closed]
  rfl

/-- A tree in which a node stands in front of a leaf, with a value that only just can be printed. -/
def sampleTree : Tree :=
  .node "size" (.leaf "wide" "10px / 2" (.node "round" .empty .empty)) (.leaf "ink" "#222" .empty)

def sampleLooks : Nat → Look
  | 0 => ⟨⟨[], List.forall_mem_nil _⟩, .share⟩
  | _ => ⟨⟨['\n'], List.forall_mem_singleton.mpr rfl⟩, .export⟩

theorem ofTextWith_print_sampleTree : sampleTree.Distinct ∧ sampleTree.Printable ∧
    ofTextWith none (sampleTree.print sampleLooks ++ [' ', '\n']) =
      ⟨⟨sampleTree.leavesFirst, ""⟩, []⟩ ∧ sampleTree.leavesFirst.Same sampleTree := by
  have distinct : sampleTree.Distinct := by decide +kernel
  have printable : sampleTree.Printable := by decide +kernel
  have blanks : ∀ c ∈ [' ', '\n'], isSpace c = true := forall_mem_of_all (by decide)
  exact ⟨distinct, printable, ofTextWith_print distinct printable sampleLooks ⟨[' ', '\n'], blanks⟩⟩

end Extraction

end StyleExports
