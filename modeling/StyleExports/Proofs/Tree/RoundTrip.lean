import StyleExports.Proofs.Text.Quoted
import StyleExports.Proofs.Tree.Repeated
import StyleExports.Tree.Json

namespace StyleExports.Tree

open Text Json

/-- The tokens of the members of an object, a comma in front of each. -/
def memberTokens : Tree → List Token
  | .empty => []
  | .leaf k x rest => .comma :: .text k.toList :: .colon :: .text x.toList :: rest.memberTokens
  | .node k u rest =>
    .comma :: .text k.toList :: .colon :: .opening ::
      (u.memberTokens.tail ++ .closing :: rest.memberTokens)

def jsonTokens (t : Tree) : List Token := .opening :: (t.memberTokens.tail ++ [.closing])

theorem memberTokens_cases (t : Tree) :
    t = .empty ∨ ∃ k ts, t.memberTokens = .comma :: .text k :: ts := by
  cases t with
  | empty => exact .inl rfl
  | leaf k x rest => exact .inr ⟨_, _, rfl⟩
  | node k u rest => exact .inr ⟨_, _, rfl⟩

section

variable {t : Tree}

theorem tokens?_nil : tokens? [] = some [] := by rw [tokens?]

/-- One step of cutting, without what bounds the recursion. -/
theorem tokens?_cons (c : Char) (s : List Char) : tokens? (c :: s) =
    if isGap c then tokens? s
    else if c = '{' then (tokens? s).map (.opening :: ·)
    else if c = '}' then (tokens? s).map (.closing :: ·)
    else if c = ':' then (tokens? s).map (.colon :: ·)
    else if c = ',' then (tokens? s).map (.comma :: ·)
    else if c = '"' then
      match Quoted.decodeBody s with
      | none => none
      | some (t, r) => (tokens? r).map (.text t :: ·)
    else none := by
  rw [tokens?]
  congr 6
  split <;> simp_all

theorem tokens?_comma (s : List Char) : tokens? (',' :: s) = (tokens? s).map (.comma :: ·) := by
  rw [tokens?_cons, if_neg (by decide), if_neg (by decide), if_neg (by decide), if_neg (by decide),
    if_pos rfl]

theorem tokens?_colon (s : List Char) : tokens? (':' :: s) = (tokens? s).map (.colon :: ·) := by
  rw [tokens?_cons, if_neg (by decide), if_neg (by decide), if_neg (by decide), if_pos rfl]

theorem tokens?_opening (s : List Char) : tokens? ('{' :: s) = (tokens? s).map (.opening :: ·) := by
  rw [tokens?_cons, if_neg (by decide), if_pos rfl]

theorem tokens?_closing (s : List Char) : tokens? ('}' :: s) = (tokens? s).map (.closing :: ·) := by
  rw [tokens?_cons, if_neg (by decide), if_neg (by decide), if_pos rfl]

theorem tokens?_encode (x s : List Char) :
    tokens? (Quoted.encode x ++ s) = (tokens? s).map (.text x :: ·) := by
  rw [Quoted.encode, List.cons_append, tokens?_cons, if_neg (by decide), if_neg (by decide),
    if_neg (by decide), if_neg (by decide), if_neg (by decide), if_pos rfl,
    Quoted.decodeBody_encodeBody]

def memberText (t : Tree) : List Char := t.jsonMembers.flatMap (',' :: ·)

theorem memberText_cases (t : Tree) :
    t = .empty ∨ t.memberText = ',' :: join [','] t.jsonMembers := by
  have commas (w : List Char) (ws : List (List Char)) :
      (w :: ws).flatMap (',' :: ·) = ',' :: join [','] (w :: ws) := by
    induction ws generalizing w with
    | nil => simp [join]
    | cons x ws ih =>
      rw [List.flatMap_cons, ih, join]
      simp
  cases t with
  | empty => exact .inl rfl
  | leaf k x rest => exact .inr (commas _ _)
  | node k u rest => exact .inr (commas _ _)

/-- If all members are cut into their tokens with the commas, so they are without the first comma. -/
theorem tokens?_join {s : List Char}
    (h : tokens? (t.memberText ++ s) = (tokens? s).map (t.memberTokens ++ ·)) :
    tokens? (join [','] t.jsonMembers ++ s) = (tokens? s).map (t.memberTokens.tail ++ ·) := by
  rcases t.memberText_cases with rfl | text
  · exact h
  rcases t.memberTokens_cases with rfl | ⟨k, ts, tokens⟩
  · exact h
  · rw [text, tokens, List.cons_append, tokens?_comma] at h
    have comma : Function.Injective (Token.comma :: ·) := fun _ _ he => (List.cons.inj he).2
    refine Option.map_injective comma (h.trans ?_)
    rw [tokens, Option.map_map]
    rfl

theorem tokens?_memberText (t : Tree) (s : List Char) :
    tokens? (t.memberText ++ s) = (tokens? s).map (t.memberTokens ++ ·) := by
  induction t generalizing s with
  | empty => simp [memberText, memberTokens, jsonMembers]
  | leaf k x rest ih =>
    have text : (leaf k x rest).memberText ++ s = ',' :: (Quoted.encode k.toList ++
        ':' :: (Quoted.encode x.toList ++ (rest.memberText ++ s))) := by
      simp [memberText, jsonMembers]
    rw [text, tokens?_comma, tokens?_encode, tokens?_colon, tokens?_encode, ih]
    simp only [Option.map_map]
    rfl
  | node k u rest ihu ih =>
    have text : (node k u rest).memberText ++ s = ',' :: (Quoted.encode k.toList ++ ':' :: '{' ::
        (join [','] u.jsonMembers ++ '}' :: (rest.memberText ++ s))) := by
      simp [memberText, jsonMembers]
    rw [text, tokens?_comma, tokens?_encode, tokens?_colon, tokens?_opening, tokens?_join (ihu _),
      tokens?_closing, ih]
    simp only [Option.map_map]
    refine congrArg (Option.map · _) (funext fun ts => ?_)
    simp [memberTokens]

theorem tokens?_toJson (t : Tree) : tokens? t.toJson.toList = some t.jsonTokens := by
  rw [toJson, String.toList_ofList, jsonChars, tokens?_opening, tokens?_join (t.tokens?_memberText _),
    tokens?_closing, tokens?_nil]
  rfl

end

section

variable {r t u : Tree} {ts : List Token} {k x : List Char} {place : Place}
variable {outer : List (String × Tree)}

theorem build?_comma : build? (.comma :: ts) .next t outer = build? ts .member t outer := by
  rw [build?, if_pos rfl]

theorem build?_leaf (hp : place ≠ .next) :
    build? (.text k :: .colon :: .text x :: ts) place t outer =
      build? ts .next (t.insert (String.ofList k) (.leaf (String.ofList x))) outer := by
  rw [build?, if_neg hp]

theorem build?_node (hp : place ≠ .next) (hd : outer.length + 2 < nestingLimit) :
    build? (.text k :: .colon :: .opening :: ts) place t outer =
      build? ts .first .empty ((String.ofList k, t) :: outer) := by
  rw [build?, if_neg (by simp [hp]; omega)]

/-- Apart from the end of the object, the same may follow a comma as the opening brace. -/
theorem build?_member : build? (.text k :: ts) .member t outer =
    build? (.text k :: ts) .first t outer := by
  match ts with
  | .colon :: .text x :: ts => rw [build?_leaf (by decide), build?_leaf (by decide)]
  | .colon :: .opening :: ts => rw [build?, build?]; simp
  | [] | [.colon] | .colon :: .closing :: _ | .colon :: .colon :: _ | .colon :: .comma :: _
  | .opening :: _ | .closing :: _ | .comma :: _ | .text _ :: _ => rfl

/-- If the members of an object are read behind another, so they are at its beginning. -/
theorem build?_tail
    (h : build? (u.memberTokens ++ .closing :: ts) .next t outer =
      build? (.closing :: ts) .next (t.collect u) outer) :
    build? (u.memberTokens.tail ++ .closing :: ts) .first t outer =
      build? (.closing :: ts) .next (t.collect u) outer := by
  rcases u.memberTokens_cases with rfl | ⟨k, us, tokens⟩
  · cases outer <;> rfl
  · rw [tokens, List.cons_append, build?_comma, List.cons_append, build?_member] at h
    rw [tokens]
    exact h

/-- Behind the members of an object reading goes on with these inserted. -/
theorem build?_memberTokens (hd : u.depth + outer.length < nestingLimit) (t : Tree)
    (ts : List Token) :
    build? (u.memberTokens ++ ts) .next t outer = build? ts .next (t.collect u) outer := by
  induction u generalizing t ts outer with
  | empty => rfl
  | leaf k x rest ih =>
    simp only [memberTokens, List.cons_append]
    rw [build?_comma, build?_leaf (by decide), ih hd, String.ofList_toList, String.ofList_toList]
    rfl
  | node k u rest ihu ih =>
    rw [depth] at hd
    have := u.depth_pos
    simp only [memberTokens, List.cons_append, List.append_assoc]
    rw [build?_comma, build?_node (by decide) (by omega), String.ofList_toList,
      build?_tail (ihu (by simp only [List.length_cons]; omega) _ _)]
    exact ih (by omega) _ _

end

/-- The tokens of members at a place of an object. Behind a member a comma comes first. -/
def tokensAt : Place → Tree → List Token
  | .next, u => u.memberTokens
  | _, u => u.memberTokens.tail

mutual

/-- Tokens complete an object of which a tree is read already: the members still to come, the brace
that closes it, and what completes the objects around it. -/
inductive Completes : Place → Tree → List (String × Tree) → List Token → Tree → Prop where
  | members {p : Place} {t r : Tree} {outer : List (String × Tree)} {ts : List Token} (u : Tree)
      (hd : u.depth + outer.length < nestingLimit) (hp : p = .member → u ≠ .empty)
      (h : CompletesAround (t.collect u) outer ts r) :
      Completes p t outer (tokensAt p u ++ .closing :: ts) r

/-- Tokens complete the objects around one that is closed. -/
inductive CompletesAround : Tree → List (String × Tree) → List Token → Tree → Prop where
  | none {t : Tree} : CompletesAround t [] [] t
  | object {k : String} {t u r : Tree} {outer : List (String × Tree)} {ts : List Token}
      (h : Completes .next (u.insert k (.node t)) outer ts r) :
      CompletesAround t ((k, u) :: outer) ts r

end

section

variable {r t u : Tree} {ts : List Token} {k x : List Char} {place : Place}
variable {outer : List (String × Tree)}

theorem Completes.comma (h : Completes .member t outer ts r) :
    Completes .next t outer (.comma :: ts) r := by
  obtain ⟨u, hd, hp, rest⟩ := h
  have next := Completes.members (p := .next) u hd (by simp) rest
  rcases u.memberTokens_cases with rfl | ⟨k, us, tokens⟩
  · exact absurd rfl (hp rfl)
  · simpa [tokensAt, tokens] using next

theorem Completes.leaf (hp : place ≠ .next)
    (h : Completes .next (t.insert (String.ofList k) (.leaf (String.ofList x))) outer ts r) :
    Completes place t outer (.text k :: .colon :: .text x :: ts) r := by
  obtain ⟨u, hd, -, rest⟩ := h
  have whole := Completes.members (p := place) (t := t)
    (.leaf (String.ofList k) (String.ofList x) u) hd (by simp) rest
  cases place with
  | next => exact absurd rfl hp
  | _ => simpa [tokensAt, memberTokens] using whole

theorem Completes.node (hp : place ≠ .next)
    (h : Completes .first .empty ((String.ofList k, t) :: outer) ts r) :
    Completes place t outer (.text k :: .colon :: .opening :: ts) r := by
  obtain ⟨v, dv, -, around⟩ := h
  cases around with | object inner =>
  obtain ⟨u, du, -, rest⟩ := inner
  have depth : (Tree.node (String.ofList k) v u).depth + outer.length < nestingLimit := by
    rw [List.length_cons] at dv
    rw [Tree.depth]
    omega
  have whole := Completes.members (p := place) (t := t) (.node (String.ofList k) v u) depth
    (by simp) rest
  cases place with
  | next => exact absurd rfl hp
  | _ => simpa [tokensAt, memberTokens] using whole

theorem completes_of_build? (hd : outer.length + 1 < nestingLimit)
    (h : build? ts place t outer = some r) : Completes place t outer ts r := by
  fun_induction build? ts place t outer with
  | case1 => simp at h
  | case2 ts place t hp hn =>
    obtain rfl := List.isEmpty_iff.mp hn
    obtain rfl := Option.some.inj h
    cases place <;> exact .members .empty hd (by simp_all) .none
  | case3 => simp at h
  | case4 ts place t hp k u outer ih =>
    rw [List.length_cons] at hd
    have around := CompletesAround.object (ih (by omega) h)
    cases place <;> exact .members .empty (by simp [depth]; omega) (by simp_all) around
  | case5 ts t outer ih => exact (ih hd h).comma
  | case6 => simp at h
  | case7 => simp at h
  | case8 k x ts place t outer hp ih => exact .leaf hp (ih hd h)
  | case9 => simp at h
  | case10 k ts place t outer hp ih =>
    rw [not_or] at hp
    exact .node hp.1 (ih (by simp only [List.length_cons]; omega) h)
  | case11 => simp at h

end

/-- A text is read as a tree exactly if it spells members that are not nested too deep and that read as
this tree. -/
theorem ofJson?_eq_some_iff {s : String} {t : Tree} : ofJson? s = some t ↔
    ∃ u : Tree, tokens? s.toList = some u.jsonTokens ∧ u.depth < nestingLimit ∧ u.collected = t := by
  constructor
  · intro h
    unfold ofJson? at h
    split at h
    · rename_i ts hts
      obtain ⟨u, hd, -, ⟨⟩⟩ := completes_of_build? (by decide) h
      exact ⟨u, hts, hd, rfl⟩
    · simp at h
  · rintro ⟨u, hu, hd, rfl⟩
    have whole : u.depth + ([] : List (String × Tree)).length < nestingLimit := hd
    have read := build?_tail (build?_memberTokens whole .empty [.closing])
    rw [ofJson?, hu]
    exact read

theorem ofJson?_of_distinct {t : Tree} (ht : t.Distinct) (hd : t.depth < nestingLimit) :
    ofJson? t.toJson = some t :=
  ofJson?_eq_some_iff.mpr ⟨t, tokens?_toJson t, hd, collected_of_distinct ht⟩

theorem distinct_of_ofJson? {s : String} {t : Tree} (h : ofJson? s = some t) :
    t.Distinct ∧ t.depth < nestingLimit := by
  obtain ⟨u, -, hd, rfl⟩ := ofJson?_eq_some_iff.mp h
  have one : Tree.empty.depth = 1 := rfl
  have := depth_collect .empty u
  have := u.depth_pos
  exact ⟨distinct_collect trivial, by rw [collected]; omega⟩

/-- A tree comes back from its text, with its names in the same order in every node, exactly if it is not
nested too deep. So does every tree that is read from any JSON text: of the members that the text spells,
those of one name are taken together in the first place, with the last value. -/
theorem ofJson?_toJson :
    (∀ t : Tree, t.Distinct → (ofJson? t.toJson = some t ↔ t.depth < nestingLimit)) ∧
      ∀ (s : String) (t : Tree), ofJson? s = some t → ofJson? t.toJson = some t ∧
        ∃ u : Tree, tokens? s.toList = some u.jsonTokens ∧ t = u.collected ∧
          t.keys = u.keys.eraseDups ∧ ∀ k, t.get? k =
            ((u.entries.filter (·.1 = k)).getLast?).map (·.2.collected) := by
  refine ⟨fun t ht => ⟨fun h => (distinct_of_ofJson? h).2, ofJson?_of_distinct ht⟩, fun s t h => ?_⟩
  obtain ⟨ht, hd⟩ := distinct_of_ofJson? h
  obtain ⟨u, hu, -, rfl⟩ := ofJson?_eq_some_iff.mp h
  exact ⟨ofJson?_of_distinct ht hd, u, hu, rfl, keys_collected u, get?_collected u⟩

/-- A text with blanks, escapes and a repeated name. -/
def repeatedText : String :=
  "\x7b\"b\":\"1\", \"a\":\x7b\"\":\"\\u00e9\\u0001\"\x7d,\n\"b\":\"2\\n\"\x7d"

def repeatedTree : Tree := .leaf "b" "2\n" (.node "a" (.leaf "" "é\x01" .empty) .empty)

theorem ofJson?_toJson_repeated : ofJson? repeatedText = some repeatedTree ∧ repeatedTree.Distinct ∧
    ofJson? repeatedTree.toJson = some repeatedTree := by
  have read : ofJson? repeatedText = some repeatedTree := by decide +kernel
  have distinct : repeatedTree.Distinct := by decide
  have depth := (ofJson?_toJson.1 _ distinct).mp (ofJson?_toJson.2 _ _ read).1
  exact ⟨read, distinct, (ofJson?_toJson.1 _ distinct).mpr depth⟩

end StyleExports.Tree
