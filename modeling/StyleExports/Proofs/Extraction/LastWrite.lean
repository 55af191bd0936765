import StyleExports.Extraction
import StyleExports.Proofs.Stylesheet.Cutting
import StyleExports.Proofs.Tree.Drill

namespace StyleExports

open Stylesheet

/-- What a rule does to a tree, one thing at a time. -/
inductive Event where
  /-- Nodes are needed all along a path. -/
  | touch (path : List String)
  /-- A text is bound at the end of a path. -/
  | write (path : List String) (text : String)
  deriving DecidableEq, Repr

namespace Event

/-- Whether an event matters to what stands at a path: a write to it or to a start of it, or a touch
of it or of a path that goes on from it. -/
def BearsOn (p : List String) : Event → Prop
  | .touch q => p <+: q
  | .write q _ => q <+: p

instance (p : List String) : DecidablePred (BearsOn p)
  | .touch q => inferInstanceAs (Decidable (p <+: q))
  | .write q _ => inferInstanceAs (Decidable (q <+: p))

def last? (p : List String) (es : List Event) : Option Event := (es.filter (BearsOn p)).getLast?

theorem last?_append (p : List String) (es fs : List Event) :
    last? p (es ++ fs) = (last? p fs).or (last? p es) := by
  rw [last?, List.filter_append, List.getLast?_append]
  rfl

theorem last?_eq_none {p : List String} {es : List Event} (h : ∀ e ∈ es, ¬ e.BearsOn p) :
    last? p es = none := by
  rw [last?, List.getLast?_eq_none_iff, List.filter_eq_nil_iff]
  simpa using h

end Event

namespace ExportRule

variable {f : Option (String → String)} {r : ExportRule} {t : Tree} {p : List String}

def writes (path : List String) (es : List (String × String)) : List Event :=
  es.map fun e => .write (path ++ [e.1]) e.2

/-- The names and texts that a rule binds, after renaming, less those without a name. -/
def texts (f : Option (String → String)) (r : ExportRule) : List (String × String) :=
  (r.declarations.map fun d => (rename f d.property, d.value)).filter (·.1 ≠ "")

/-- The events of a rule; a rule with a forbidden character in its path has none. -/
def events (f : Option (String → String)) (r : ExportRule) : List Event :=
  if r.selector.isRejected then []
  else .touch (r.path f) :: writes (r.path f) (r.texts f)

theorem bindings_eq (f : Option (String → String)) (r : ExportRule) :
    r.bindings f = (r.texts f).map fun e => (e.1, .leaf e.2) := by
  rw [bindings, texts, List.filter_map, List.filter_map, List.map_map]
  rfl

/-- A write bears on the paths that begin with its own. -/
theorem last?_writes (path : List String) (es : List (String × String)) (k : String)
    (q : List String) : Event.last? (path ++ k :: q) (writes path es) =
      ((es.filter (·.1 = k)).getLast?).map fun e => .write (path ++ [e.1]) e.2 := by
  have bears (e : String × String) :
      (Event.write (path ++ [e.1]) e.2).BearsOn (path ++ k :: q) ↔ e.1 = k := by
    rw [Event.BearsOn, List.prefix_append_right_inj, List.cons_prefix_cons]
    simp
  rw [Event.last?, writes, List.filter_map, List.getLast?_map]
  simp only [Function.comp_def, bears]

theorem last?_writes_eq_none {path : List String} (es : List (String × String))
    (h : ∀ k, ¬ path ++ [k] <+: p) : Event.last? p (writes path es) = none := by
  apply Event.last?_eq_none
  intro e he hb
  obtain ⟨d, -, rfl⟩ := List.mem_map.mp he
  exact h d.1 hb

/-- What stands at a path once names were bound: what the last binding of its first name says. -/
theorem getPath?_insertAll_cons (es : List (String × String)) (u : Tree) (k : String)
    (q : List String) (x : String) :
    (u.insertAll (es.map fun e => (e.1, Value.leaf e.2))).getPath? (k :: q) = some (.leaf x) ↔
      match (es.filter (·.1 = k)).getLast? with
      | some e => q = [] ∧ e.2 = x
      | none => u.getPath? (k :: q) = some (.leaf x) := by
  have bound := Tree.get?_insertAll (es.map fun e => (e.1, Value.leaf e.2)) u k
  rw [List.filter_map, List.getLast?_map] at bound
  change _ = (((es.filter (·.1 = k)).getLast?.map _).map _).or _ at bound
  by_cases hq : q = []
  · subst hq
    rw [Tree.getPath?, bound, Tree.getPath?]
    cases (es.filter (·.1 = k)).getLast? with
    | none => rfl
    | some e => simp
  · rw [Tree.getPath?_cons hq, bound, Tree.getPath?_cons hq]
    cases (es.filter (·.1 = k)).getLast? with
    | none => rfl
    | some e => simp [hq, Value.tree]

/-- What one rule changes: of its events the last that bears on a path decides what stands there,
and without one nothing changes. -/
theorem getPath?_write (f : Option (String → String)) (r : ExportRule) (t : Tree) (p : List String)
    (x : String) : (r.write f t).getPath? p = some (.leaf x) ↔
      match Event.last? p (r.events f) with
      | some e => e = .write p x
      | none => t.getPath? p = some (.leaf x) := by
  by_cases rejected : r.selector.isRejected = true
  · rw [write_of_isRejected rejected, events, if_pos rejected]
    rfl
  rw [write_of_not_isRejected rejected, events, if_neg rejected, bindings_eq, ← List.singleton_append,
    Event.last?_append]
  generalize r.path f = path, r.texts f = es
  by_cases within : p <+: path
  · -- the rule needs nodes all along this path
    have silent : Event.last? p (writes path es) = none := by
      apply last?_writes_eq_none
      intro k hk
      have longer := (hk.trans within).length_le
      rw [List.length_append, List.length_singleton] at longer
      omega
    have touched : Event.last? p [.touch path] = some (.touch path) := by
      simp [Event.last?, Event.BearsOn, within]
    have node := Tree.getPath?_drill_ne_leaf within (t := t) (x := x)
    rw [silent, touched]
    simp [node]
  have untouched : Event.last? p [.touch path] = none := by
    apply Event.last?_eq_none
    simpa [Event.BearsOn] using within
  rw [untouched, Option.or_none]
  by_cases beyond : path <+: p
  · -- here the bindings of the rule decide
    obtain ⟨q, rfl⟩ := beyond
    obtain ⟨k, q, rfl⟩ := List.exists_cons_of_ne_nil (l := q) (by rintro rfl; simp at within)
    rw [Tree.getPath?_drill_append (List.cons_ne_nil k q), getPath?_insertAll_cons, last?_writes,
      Tree.getPath?_append (List.cons_ne_nil k q)]
    cases hl : (es.filter (·.1 = k)).getLast? with
    | none => rfl
    | some e =>
      have hk : e.1 = k := by
        have hm := List.mem_of_getLast? hl
        simpa using (List.mem_filter.mp hm).2
      simp [hk, eq_comm]
  · have silent : Event.last? p (writes path es) = none := by
      apply last?_writes_eq_none
      intro k hk
      exact beyond ((List.prefix_append path [k]).trans hk)
    rw [silent, Tree.getPath?_drill_of_apart within beyond]

end ExportRule

namespace Extraction

theorem getPath?_writeAll (f : Option (String → String)) (rules : List ExportRule) (t : Tree)
    (p : List String) (x : String) : (writeAll f rules t).getPath? p = some (.leaf x) ↔
      match Event.last? p (rules.flatMap (·.events f)) with
      | some e => e = .write p x
      | none => t.getPath? p = some (.leaf x) := by
  induction rules generalizing t with
  | nil => rfl
  | cons r rules ih =>
    have step := ExportRule.getPath?_write f r t p x
    change (writeAll f rules (r.write f t)).getPath? p = some (.leaf x) ↔ _
    rw [ih, List.flatMap_cons, Event.last?_append]
    cases Event.last? p (rules.flatMap (·.events f)) with
    | some e => rfl
    | none =>
      rw [Option.none_or]
      exact step

end Extraction

/-- The events of the export rules of a text, in the order of the source. -/
def events (f : Option (String → String)) (s : List Char) : List Event :=
  ((Sheet.ofText s).exportRules 0).flatMap (·.events f)

example : ((Extraction.ofTextWith none
    ":export a \x7b b: 1 \x7d :export a b \x7b \x7d :share a \x7b b: 2; b: 3 \x7d".toList)
      |>.extract.tree.getPath? ["a", "b"]) = some (.leaf "3") := by decide +kernel

end StyleExports
