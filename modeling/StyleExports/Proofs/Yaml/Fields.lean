import StyleExports.Proofs.Yaml.Entries
import StyleExports.Yaml.Document

namespace StyleExports.Yaml

variable {α : Type}

namespace Content

def itemEvent (s : List Char) : Event α := .scalar none ⟨s, .quoted, none⟩

def events : Content → List (Event α)
  | .plain t => [.scalar none ⟨t, .plain, none⟩]
  | .list items => .listStart none none :: (items.map itemEvent ++ [.listEnd])
  | .emptyMap => [.mapStart none none, .mapEnd]

def itemNodes : List (List Char) → Nodes α
  | [] => .none
  | s :: items => .scalar ⟨s, .quoted, none⟩ (itemNodes items)

def node : Content → Node α
  | .plain t => .scalar ⟨t, .plain, none⟩
  | .list items => .list none (itemNodes items)
  | .emptyMap => .map none .none

end Content

namespace Entry

def keyEvent (e : Entry) : Event α := .scalar none ⟨e.name, .plain, none⟩

def events (e : Entry) : List (Event α) := e.keyEvent :: e.content.events

/-- The keys and the values in turn. -/
def nodes : List Entry → List (Node α)
  | [] => []
  | e :: es => .scalar ⟨e.name, .plain, none⟩ :: e.content.node :: nodes es

end Entry

/-- Reading what is expected comes to what is expected later, with the events on the way. Every step
takes a token. -/
def Steps (xs : List Expected) (ts : List Token) (fs : List NamedEvent) (ys : List Expected)
    (us : List Token) : Prop :=
  ∃ k, k + us.length ≤ ts.length ∧ ∀ n, steps? standardHandles (k + n) xs ts =
    (steps? standardHandles n ys us).map fun (es, rest) => (fs ++ es, rest)

namespace Steps

variable {xs ys zs : List Expected} {ts us vs : List Token} {es fs : List NamedEvent}

theorem refl (xs : List Expected) (ts : List Token) : Steps xs ts [] xs ts :=
  ⟨0, by omega, fun n => by simp⟩

theorem trans (h : Steps xs ts es ys us) (h' : Steps ys us fs zs vs) :
    Steps xs ts (es ++ fs) zs vs := by
  obtain ⟨j, hj, first⟩ := h
  obtain ⟨k, hk, rest⟩ := h'
  refine ⟨j + k, by omega, fun n => ?_⟩
  rw [Nat.add_assoc, first, rest, Option.map_map]
  congr 1
  funext p
  simp

theorem step {x : Expected} (more : List Expected) {t : Token}
    (h : step? standardHandles x (t :: ts) = some (es, more, us)) (taken : us.length ≤ ts.length)
    (xs : List Expected) : Steps (x :: xs) (t :: ts) es (more ++ xs) us := by
  refine ⟨1, by simp; omega, fun n => ?_⟩
  rw [Nat.add_comm, steps?, h]

theorem items (items : List (List Char)) (xs : List Expected) (ts : List Token) :
    Steps (.blockListEntry :: xs) (items.flatMap Content.itemTokens ++ .blockEnd :: ts)
      (items.map Content.itemEvent ++ [.listEnd]) xs ts := by
  induction items with
  | nil => exact step [] rfl (Nat.le_refl _) xs
  | cons s items ih =>
    have first : Steps (.blockListEntry :: xs)
        (.blockEntry :: .scalar s .quoted :: (items.flatMap Content.itemTokens ++ .blockEnd :: ts))
        [Content.itemEvent s] (.blockListEntry :: xs)
        (items.flatMap Content.itemTokens ++ .blockEnd :: ts) :=
      step [.blockListEntry] rfl (by simp) xs
    exact first.trans ih

theorem entry (e : Entry) (xs : List Expected) (ts : List Token) :
    Steps (.blockMapKey :: xs) (e.tokens ++ ts) e.events (.blockMapKey :: xs) ts := by
  have key : Steps (.blockMapKey :: xs) (e.tokens ++ ts) [e.keyEvent] (.blockMapValue :: xs)
      (.value :: (e.content.tokens ++ ts)) :=
    step [.blockMapValue] rfl (by simp) xs
  refine key.trans ?_
  cases e.content with
  | plain t => exact step [.blockMapKey] rfl (by simp [Content.tokens]) xs
  | list items =>
    have begin : Steps (.blockMapValue :: xs) (.value :: ((Content.list items).tokens ++ ts))
        [.listStart none none] (.blockListEntry :: .blockMapKey :: xs)
        (items.flatMap Content.itemTokens ++ [.blockEnd] ++ ts) :=
      step [.blockListEntry, .blockMapKey] rfl (by simp [Content.tokens]) xs
    rw [List.append_assoc] at begin
    exact begin.trans (Steps.items items _ ts)
  | emptyMap =>
    have begin : Steps (.blockMapValue :: xs) (.value :: (Content.emptyMap.tokens ++ ts))
        [.mapStart none none] (.flowMapKey true :: .blockMapKey :: xs) (.flowMapEnd :: ts) :=
      step [.flowMapKey true, .blockMapKey] rfl (by simp [Content.tokens]) xs
    exact begin.trans (step [] rfl (Nat.le_refl _) _)

theorem entries (es : List Entry) (xs : List Expected) (ts : List Token) :
    Steps (.blockMapKey :: xs) (es.flatMap Entry.tokens ++ ts) (es.flatMap Entry.events)
      (.blockMapKey :: xs) ts := by
  induction es with
  | nil => exact refl _ _
  | cons e es ih =>
    rw [List.flatMap_cons, List.append_assoc]
    exact (entry e xs _).trans ih

end Steps

theorem onlyDocument?_entries (es : List Entry) :
    onlyDocument? (.blockMapStart :: (es.flatMap Entry.tokens ++ [.blockEnd, .streamEnd])) =
      some (.mapStart none none :: (es.flatMap Entry.events ++ [.mapEnd])) := by
  have ended : Steps [.blockMapKey] [.blockEnd, .streamEnd] [.mapEnd] [] [.streamEnd] :=
    .step [] rfl (Nat.le_refl _) _
  obtain ⟨k, enough, reads⟩ := (Steps.entries es [] [.blockEnd, .streamEnd]).trans ended
  obtain ⟨n, bound⟩ : ∃ n, stepBound (es.flatMap Entry.tokens ++ [.blockEnd, .streamEnd]) = k + n :=
    ⟨stepBound (es.flatMap Entry.tokens ++ [.blockEnd, .streamEnd]) - k, by unfold stepBound; omega⟩
  have document : document? standardHandles
      (.blockMapStart :: (es.flatMap Entry.tokens ++ [.blockEnd, .streamEnd])) =
        some (.mapStart none none :: (es.flatMap Entry.events ++ [.mapEnd]), [.streamEnd]) := by
    have node : node? standardHandles true false
        (.blockMapStart :: (es.flatMap Entry.tokens ++ [.blockEnd, .streamEnd])) =
          some ([.mapStart none none], [.blockMapKey],
            es.flatMap Entry.tokens ++ [.blockEnd, .streamEnd]) := rfl
    rw [document?, node]
    simp only
    rw [bound, reads]
    cases n <;> simp [steps?]
  simp only [onlyDocument?, document]
  rfl

theorem link?_entry (e : Entry) (n : Nat) (x : Anchors) (es : List NamedEvent) : ∃ m,
    link? n x (e.events ++ es) = (link? m x es).map fun (fs, y) => (e.events ++ fs, y) := by
  have items (items : List (List Char)) (n : Nat) (es : List NamedEvent) : ∃ m,
      link? n x (items.map Content.itemEvent ++ es) =
        (link? m x es).map fun (fs, y) => (items.map Content.itemEvent ++ fs, y) := by
    induction items generalizing n with
    | nil => exact ⟨n, by simp⟩
    | cons s items ih =>
      obtain ⟨m, h⟩ := ih (n + 1)
      refine ⟨m, ?_⟩
      rw [List.map_cons, List.cons_append, Content.itemEvent, link?, Anchors.add, h, Option.map_map]
      rfl
  cases hc : e.content with
  | plain t =>
    refine ⟨n + 1 + 1, ?_⟩
    simp only [Entry.events, Entry.keyEvent, hc, Content.events, List.cons_append, List.nil_append,
      link?, Anchors.add, Option.map_map]
    rfl
  | list ts =>
    obtain ⟨m, h⟩ := items ts (n + 1 + 1) (.listEnd :: es)
    refine ⟨m + 1, ?_⟩
    simp only [Entry.events, Entry.keyEvent, hc, Content.events, List.cons_append, List.append_assoc,
      List.nil_append, link?, Anchors.add, h, Option.map_map]
    rfl
  | emptyMap =>
    refine ⟨n + 1 + 1 + 1, ?_⟩
    simp only [Entry.events, Entry.keyEvent, hc, Content.events, List.cons_append, List.nil_append,
      link?, Anchors.add, Option.map_map]
    rfl

theorem link?_entries (es : List Entry) (n : Nat) (x : Anchors) (fs : List NamedEvent) : ∃ m,
    link? n x (es.flatMap Entry.events ++ fs) =
      (link? m x fs).map fun (gs, y) => (es.flatMap Entry.events ++ gs, y) := by
  induction es generalizing n with
  | nil => exact ⟨n, by simp⟩
  | cons e es ih =>
    obtain ⟨k, first⟩ := link?_entry e n x (es.flatMap Entry.events ++ fs)
    obtain ⟨m, rest⟩ := ih k
    refine ⟨m, ?_⟩
    rw [List.flatMap_cons, List.append_assoc, first, rest, Option.map_map]
    congr 1
    funext p
    simp

/-- A text of entries is a document without anchors. -/
theorem ofText?_entries {es : List Entry} (proper : es ≠ []) (plain : ∀ e ∈ es, e.isPlain = true) :
    Document.ofText? (es.flatMap Entry.text) =
      some ⟨.mapStart none none :: (es.flatMap Entry.events ++ [.mapEnd]), []⟩ := by
  obtain ⟨m, linked⟩ := link?_entries es 1 .empty [.mapEnd]
  simp only [Document.ofText?, tokens?_entries proper plain, onlyDocument?_entries, bind, Option.bind,
    Document.ofEvents?, link?, Anchors.add, linked, Option.map_some]
  rfl

section

open Nodes (levels ofEvents consEvent)

theorem levels_items (items : List (List Char)) (es : List (Event α)) :
    levels (items.map Content.itemEvent ++ .listEnd :: es) =
      (Content.itemNodes items, (levels es).1 :: (levels es).2) := by
  induction items with
  | nil => rfl
  | cons s items ih =>
    have cons : levels ((s :: items).map Content.itemEvent ++ .listEnd :: es) =
        consEvent (Content.itemEvent s) (levels (items.map Content.itemEvent ++ .listEnd :: es)) := rfl
    rw [cons, ih]
    rfl

/-- The events of an entry put two nodes in front. -/
theorem toList_levels_entry (e : Entry) (es : List (Event α)) :
    (levels (e.events ++ es)).1.toList =
        .scalar ⟨e.name, .plain, none⟩ :: e.content.node :: (levels es).1.toList ∧
      (levels (e.events ++ es)).2 = (levels es).2 := by
  have cons : levels (e.events ++ es) = consEvent e.keyEvent (levels (e.content.events ++ es)) := rfl
  rw [cons]
  cases e.content with
  | plain t => exact ⟨rfl, rfl⟩
  | list items =>
    have begin : levels ((Content.list items).events ++ es) = consEvent (.listStart none none)
        (levels (items.map Content.itemEvent ++ .listEnd :: es)) := by
      simp [Content.events, levels]
    rw [begin, levels_items]
    exact ⟨rfl, rfl⟩
  | emptyMap => exact ⟨rfl, rfl⟩

theorem toList_levels_entries (es : List Entry) (fs : List (Event α)) :
    (levels (es.flatMap Entry.events ++ fs)).1.toList = Entry.nodes es ++ (levels fs).1.toList ∧
      (levels (es.flatMap Entry.events ++ fs)).2 = (levels fs).2 := by
  induction es with
  | nil => exact ⟨rfl, rfl⟩
  | cons e es ih =>
    rw [List.flatMap_cons, List.append_assoc]
    obtain ⟨first, open'⟩ := toList_levels_entry e (es.flatMap Entry.events ++ fs)
    rw [first, open', ih.1, ih.2]
    exact ⟨rfl, rfl⟩

theorem toList_ofEvents_entries (es : List Entry) : ∃ entries : Nodes α,
    (ofEvents (.mapStart none none :: (es.flatMap Entry.events ++ [.mapEnd]))).toList =
      [.map none entries] ∧ entries.toList = Entry.nodes es := by
  obtain ⟨inner, outer⟩ := @toList_levels_entries α es [.mapEnd]
  refine ⟨(levels (es.flatMap Entry.events ++ [.mapEnd])).1, ?_, inner.trans (by simp [levels,
    consEvent, Nodes.toList])⟩
  rw [ofEvents, levels, List.foldr_cons, ← levels]
  generalize levels (es.flatMap Entry.events ++ [.mapEnd]) = l at outer
  obtain ⟨first, more⟩ := l
  subst outer
  rfl

end

namespace Document

variable {d : Document}

theorem resolve?_content (c : Content) (n left : Nat) :
    d.resolve? (n + 1) c.node.alone left = some (c.node.alone, left) := by
  have items (inner : Nodes Nat → Nat → Option (Nodes Empty × Nat)) (ts : List (List Char)) :
      d.resolveWith inner (Content.itemNodes ts) left = some (Content.itemNodes ts, left) := by
    induction ts with
    | nil => rfl
    | cons s ts ih =>
      rw [Content.itemNodes, resolveWith, ih]
      rfl
  cases c with
  | plain t => rfl
  | list ts =>
    have inner : d.resolve? n (Content.itemNodes ts) left = some (Content.itemNodes ts, left) := by
      cases n <;> exact items _ ts
    simp only [resolve?, Content.node, Node.alone, resolveWith, inner, bind, Option.bind]
    rfl
  | emptyMap => cases n <;> rfl

theorem fieldsOf?_entries {known : List Char → Bool} {es : List Entry}
    (h : ∀ e ∈ es, known e.name = true) (left : Nat) :
    d.fieldsOf? known (Nodes.pairs.go (Entry.nodes es)) left =
      some (es.map fun e => (e.name, e.content.node)) := by
  induction es with
  | nil => rfl
  | cons e es ih =>
    have key : d.key? (.scalar ⟨e.name, .plain, none⟩) left = some (e.name, left) := rfl
    simp only [Entry.nodes, Nodes.pairs.go, fieldsOf?, key, h e List.mem_cons_self, depthBound,
      resolve?_content e.content 126, Node.toList_alone, bind, Option.bind,
      ih fun f hf => h f (List.mem_cons_of_mem _ hf)]
    rfl

end Document

/-- A text of entries is read as a map with these fields. -/
theorem fields?_entries {es : List Entry} (proper : es ≠ []) (plain : ∀ e ∈ es, e.isPlain = true)
    {known : List Char → Bool} (h : ∀ e ∈ es, known e.name = true) :
    ∃ d, Document.ofText? (es.flatMap Entry.text) = some d ∧
      d.fields? known = some (es.map fun e => (e.name, e.content.node)) := by
  refine ⟨_, ofText?_entries proper plain, ?_⟩
  obtain ⟨entries, root, inner⟩ := @toList_ofEvents_entries Nat es
  simp only [Document.fields?, Document.root?, root, List.head?_cons, Nodes.pairs, inner,
    Document.fieldsOf?_entries h]

end StyleExports.Yaml
