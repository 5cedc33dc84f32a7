import RouteDocs.Proofs.Yaml.Layout
import RouteDocs.Yaml.Node.Tree

/-!
# Values read back as nodes

## Main definitions

* `nodeOf`: the node of a JSON value. There are neither anchors nor tags in it.
* `ParsesAs`: tokens are read as a node wherever they stand.

## Main statements

* `ParsesAs.array`, `ParsesAs.object`: a collection is read if its last value is.
* `document?_tokensOf`: the tokens of a value are read as its node.
* `link?_nodeOf`: there is nothing to number in it.
-/

namespace RouteDocs.Yaml

open Value

/-! ## Nodes -/

/-- The node of a string. -/
def stringNode {ρ : Type} (s : String) : Node ρ :=
  .scalar none { style := (Written.ofString s.toList).style, text := s }

mutual

/-- The node of a value. -/
def nodeOf {ρ : Type} : Json → Node ρ
  | .null => .scalar none { text := "null" }
  | .bool b => .scalar none { text := boolString b }
  | .number n => .scalar none { text := String.ofList (n.text numberLayout) }
  | .string s => stringNode s
  | .array items => .sequence none none (itemNodes items)
  | .object members => .mapping none none (memberNodes members)

def itemNodes {ρ : Type} : List Json → List (Node ρ)
  | [] => []
  | x :: items => nodeOf x :: itemNodes items

def memberNodes {ρ : Type} : List (String × Json) → List (Node ρ × Node ρ)
  | [] => []
  | (k, x) :: members => (stringNode k, nodeOf x) :: memberNodes members

end

theorem itemNodes_eq_map {ρ : Type} (items : List Json) :
    itemNodes (ρ := ρ) items = items.map nodeOf := by
  induction items with
  | nil => rfl
  | cons x items ih => rw [itemNodes, ih, List.map_cons]

theorem memberNodes_eq_map {ρ : Type} (members : List (String × Json)) :
    memberNodes (ρ := ρ) members = members.map fun m => (stringNode m.1, nodeOf m.2) := by
  induction members with
  | nil => rfl
  | cons m members ih => rw [memberNodes, ih, List.map_cons]

/-! ## From tokens -/

variable {handles : Handles}

/-- A token that starts a node. -/
inductive StartsNode : Token → Prop
  | scalar (style : Style) (text : String) : StartsNode (.scalar style text)
  | flowSequence : StartsNode .flowSequenceStart
  | flowMapping : StartsNode .flowMappingStart
  | blockSequence : StartsNode .blockSequenceStart
  | blockMapping : StartsNode .blockMappingStart

theorem exists_tokensOf_eq_cons (indentless : Bool) (j : Json) :
    ∃ t ts, tokensOf indentless j = t :: ts ∧
      (StartsNode t ∨ indentless = true ∧ t = .blockEntry) := by
  cases j with
  | null | bool | number | string => exact ⟨_, _, rfl, .inl (.scalar _ _)⟩
  | array items =>
    cases items with
    | nil => exact ⟨_, _, rfl, .inl .flowSequence⟩
    | cons x items =>
      cases indentless with
      | false => exact ⟨_, _, rfl, .inl .blockSequence⟩
      | true => exact ⟨_, _, rfl, .inr ⟨rfl, rfl⟩⟩
  | object members =>
    cases members with
    | nil => exact ⟨_, _, rfl, .inl .flowMapping⟩
    | cons m members => exact ⟨_, _, rfl, .inl .blockMapping⟩

theorem length_tokensOf_pos (indentless : Bool) (j : Json) :
    0 < (tokensOf indentless j).length := by
  obtain ⟨t, ts, htokens, -⟩ := exists_tokensOf_eq_cons indentless j
  rw [htokens]
  exact Nat.succ_pos _

/-- Wherever the tokens may stand they are read as the node. For a sequence they may lack a start
and an end, but only where items without indentation are allowed. -/
structure ParsesAs (handles : Handles) (tokens : Bool → List Token) (node : Node String) :
    Prop where
  starts : ∀ indentless, ∃ t ts, tokens indentless = t :: ts ∧
    (StartsNode t ∨ indentless = true ∧ t = .blockEntry)
  reads : ∀ (fuel : Nat) (allowed indentless : Bool) (rest : List Token),
    4 * (tokens indentless).length ≤ fuel →
      (indentless = true → allowed = true ∧ rest.head? ≠ some .blockEntry) →
        Node.ofTokens? handles fuel true allowed (tokens indentless ++ rest) = some (node, rest)

/-- Wherever the tokens of the value may stand they are read as its node. Where items without
indentation are not allowed, a sequence has a start. -/
def Parses (handles : Handles) (j : Json) : Prop :=
  ∀ (fuel : Nat) (allowed indentless : Bool) (rest : List Token),
    4 * (tokensOf indentless j).length ≤ fuel →
      (indentless = true → allowed = true ∧ rest.head? ≠ some .blockEntry) →
        Node.ofTokens? handles fuel true allowed (tokensOf indentless j ++ rest) =
          some (nodeOf j, rest)

theorem Parses.parsesAs {j : Json} (h : Parses handles j) :
    ParsesAs handles (fun indentless => tokensOf indentless j) (nodeOf j) :=
  ⟨fun indentless => exists_tokensOf_eq_cons indentless j, h⟩

theorem ParsesAs.length_pos {tokens : Bool → List Token} {node : Node String}
    (h : ParsesAs handles tokens node) (indentless : Bool) : 0 < (tokens indentless).length := by
  obtain ⟨t, ts, htokens, -⟩ := h.starts indentless
  rw [htokens]
  exact Nat.succ_pos _

theorem parsesAs_scalar (style : Style) (text : String) :
    ParsesAs handles (fun _ => [.scalar style text])
      (.scalar none { style := style, text := text }) where
  starts _ := ⟨_, _, rfl, .inl (.scalar _ _)⟩
  reads fuel allowed indentless rest hfuel _ := by
    obtain ⟨fuel, rfl⟩ := Nat.exists_eq_add_of_lt (Nat.lt_of_lt_of_le (Nat.succ_pos 3) hfuel)
    rw [Nat.zero_add]
    rfl

theorem parses_scalar {j : Json} {style : Style} {text : String}
    (htokens : ∀ indentless, tokensOf indentless j = [.scalar style text])
    (hnode : nodeOf (ρ := String) j = .scalar none { style := style, text := text }) :
    Parses handles j := by
  intro fuel allowed indentless rest
  rw [htokens, hnode]
  exact (parsesAs_scalar style text).reads fuel allowed indentless rest

/-! ### Items -/

section

variable {tokens : Bool → List Token} {node : Node String}

theorem ParsesAs.omitted_eq_false (h : ParsesAs handles tokens node) {indentless : Bool}
    {ends rest : List Token}
    (hends : ∀ t, StartsNode t ∨ indentless = true ∧ t = .blockEntry → t ∉ ends) :
    omitted ends (tokens indentless ++ rest) = false := by
  obtain ⟨t, ts, htokens, ht⟩ := h.starts indentless
  rw [htokens]
  simpa [omitted] using hends t ht

theorem blockItems?_cons (h : ParsesAs handles tokens node) {fuel : Nat}
    (hfuel : 4 * (tokens false).length ≤ fuel) {more rest : List Token} {nodes : List (Node String)}
    (hmore : Node.blockItems? handles fuel more = some (nodes, rest)) :
    Node.blockItems? handles (fuel + 1) (.blockEntry :: (tokens false ++ more)) =
      some (node :: nodes, rest) := by
  have homitted : omitted [.blockEntry, .blockEnd] (tokens false ++ more) = false := by
    apply h.omitted_eq_false
    intro t ht
    rcases ht with ht | ⟨ht, -⟩
    · cases ht <;> simp
    · cases ht
  have hitem := h.reads fuel false false more hfuel (by simp)
  rw [Node.blockItems?]
  simp [homitted, hitem, hmore]

/-- Items in front of others. -/
theorem blockItems?_append {items : List Json} (h : ∀ x ∈ items, Parses handles x) {n : Nat}
    {more rest : List Token} {nodes : List (Node String)}
    (hmore : ∀ fuel, n < fuel → Node.blockItems? handles fuel more = some (nodes, rest))
    (fuel : Nat) (hfuel : 4 * (itemTokens items).length + n < fuel) :
    Node.blockItems? handles fuel (itemTokens items ++ more) =
      some (itemNodes items ++ nodes, rest) := by
  induction items generalizing fuel with
  | nil => exact hmore fuel (by simpa [itemTokens] using hfuel)
  | cons x items ih =>
    obtain ⟨hx, hitems⟩ := List.forall_mem_cons.1 h
    obtain ⟨fuel, rfl⟩ : ∃ n, fuel = n + 1 := ⟨fuel - 1, by omega⟩
    simp only [itemTokens, List.cons_append, List.length_cons, List.length_append,
      List.append_assoc] at hfuel ⊢
    exact blockItems?_cons hx.parsesAs (by omega) (ih hitems fuel (by omega))

theorem blockItems?_blockEnd (rest : List Token) (fuel : Nat) (hfuel : 0 < fuel) :
    Node.blockItems? handles fuel (.blockEnd :: rest) = some ([], rest) := by
  obtain ⟨fuel, rfl⟩ := Nat.exists_eq_add_of_lt hfuel
  rw [Nat.zero_add]
  rfl

theorem indentlessItems?_cons (h : ParsesAs handles tokens node) {fuel : Nat}
    (hfuel : 4 * (tokens false).length ≤ fuel) {more rest : List Token} {nodes : List (Node String)}
    (hmore : Node.indentlessItems? handles fuel more = some (nodes, rest)) :
    Node.indentlessItems? handles (fuel + 1) (.blockEntry :: (tokens false ++ more)) =
      some (node :: nodes, rest) := by
  have homitted :
      omitted [.blockEntry, .key, .value, .blockEnd] (tokens false ++ more) = false := by
    apply h.omitted_eq_false
    intro t ht
    rcases ht with ht | ⟨ht, -⟩
    · cases ht <;> simp
    · cases ht
  have hitem := h.reads fuel false false more hfuel (by simp)
  rw [Node.indentlessItems?]
  simp [homitted, hitem, hmore]

theorem indentlessItems?_append {items : List Json} (h : ∀ x ∈ items, Parses handles x) {n : Nat}
    {more rest : List Token} {nodes : List (Node String)}
    (hmore : ∀ fuel, n < fuel → Node.indentlessItems? handles fuel more = some (nodes, rest))
    (fuel : Nat) (hn : n < fuel) (hfuel : 4 * (itemTokens items).length + n ≤ fuel + 2) :
    Node.indentlessItems? handles fuel (itemTokens items ++ more) =
      some (itemNodes items ++ nodes, rest) := by
  induction items generalizing fuel with
  | nil => exact hmore fuel hn
  | cons x items ih =>
    obtain ⟨hx, hitems⟩ := List.forall_mem_cons.1 h
    obtain ⟨fuel, rfl⟩ : ∃ n, fuel = n + 1 := ⟨fuel - 1, by omega⟩
    have hlength := length_tokensOf_pos false x
    simp only [itemTokens, List.cons_append, List.length_cons, List.length_append,
      List.append_assoc] at hfuel ⊢
    exact indentlessItems?_cons hx.parsesAs (by omega) (ih hitems fuel (by omega) (by omega))

theorem indentlessItems?_nil {rest : List Token} (hrest : rest.head? ≠ some .blockEntry)
    (fuel : Nat) (hfuel : 0 < fuel) :
    Node.indentlessItems? handles fuel rest = some ([], rest) := by
  obtain ⟨fuel, rfl⟩ := Nat.exists_eq_add_of_lt hfuel
  cases rest with
  | nil => rfl
  | cons t rest =>
    have ht : t ≠ .blockEntry := by simpa using hrest
    rw [Node.indentlessItems?]
    intro ts heq
    exact ht (List.cons.inj heq).1

/-! ### Members -/

theorem ParsesAs.blockPart? (h : ParsesAs handles tokens node) (fuel : Nat) (indentless : Bool)
    {rest : List Token} (hfuel : 4 * (tokens indentless).length < fuel)
    (hrest : rest.head? ≠ some .blockEntry) :
    Node.blockPart? handles fuel (tokens indentless ++ rest) = some (node, rest) := by
  obtain ⟨fuel, rfl⟩ : ∃ n, fuel = n + 1 := ⟨fuel - 1, by omega⟩
  have homitted : omitted [.key, .value, .blockEnd] (tokens indentless ++ rest) = false := by
    apply h.omitted_eq_false
    intro t ht
    rcases ht with ht | ⟨-, rfl⟩
    · cases ht <;> simp
    · simp
  rw [Node.blockPart?, homitted]
  exact h.reads fuel true indentless rest (Nat.le_of_lt_succ hfuel) fun _ => ⟨rfl, hrest⟩

theorem parses_string (s : String) : Parses handles (.string s) :=
  parses_scalar (fun _ => by rw [tokensOf, stringToken, String.ofList_toList]) rfl

theorem blockEntries?_cons (h : ParsesAs handles tokens node) (k : String) {fuel : Nat}
    (hfuel : 4 * (tokens (isSimpleKey (.string k))).length + 4 < fuel) {more rest : List Token}
    {nodes : List (Node String × Node String)} (hnext : more.head? ≠ some .blockEntry)
    (hmore : Node.blockEntries? handles fuel more = some (nodes, rest)) :
    Node.blockEntries? handles (fuel + 1)
        (.key :: stringToken k.toList :: .value :: (tokens (isSimpleKey (.string k)) ++ more)) =
      some ((stringNode k, node) :: nodes, rest) := by
  have hkey : ∀ ts, Node.blockPart? handles fuel (stringToken k.toList :: .value :: ts) =
      some (stringNode k, .value :: ts) := fun ts =>
    (parses_string k).parsesAs.blockPart? fuel false (by simp [tokensOf]; omega) (by simp)
  have hvalue := h.blockPart? fuel (isSimpleKey (.string k)) (by omega) hnext
  rw [Node.blockEntries?]
  simp [hkey, hvalue, hmore]

/-- Members in front of others. -/
theorem blockEntries?_append {members : List (String × Json)}
    (h : ∀ m ∈ members, Parses handles m.2) {n : Nat} {more rest : List Token}
    {nodes : List (Node String × Node String)} (hnext : more.head? ≠ some .blockEntry)
    (hmore : ∀ fuel, n < fuel → Node.blockEntries? handles fuel more = some (nodes, rest))
    (fuel : Nat) (hfuel : 4 * (memberTokens members).length + n < fuel) :
    Node.blockEntries? handles fuel (memberTokens members ++ more) =
      some (memberNodes members ++ nodes, rest) := by
  induction members generalizing fuel with
  | nil => exact hmore fuel (by simpa [memberTokens] using hfuel)
  | cons m members ih =>
    obtain ⟨k, x⟩ := m
    obtain ⟨hx, hmembers⟩ : Parses handles x ∧ ∀ m ∈ members, Parses handles m.2 :=
      List.forall_mem_cons.1 h
    obtain ⟨fuel, rfl⟩ : ∃ n, fuel = n + 1 := ⟨fuel - 1, by omega⟩
    simp only [memberTokens, List.cons_append, List.length_cons, List.length_append,
      List.append_assoc] at hfuel ⊢
    have hnext' : (memberTokens members ++ more).head? ≠ some .blockEntry := by
      cases members with
      | nil => exact hnext
      | cons m members => simp [memberTokens]
    exact blockEntries?_cons hx.parsesAs k (by omega) hnext' (ih hmembers fuel (by omega))

theorem blockEntries?_blockEnd (rest : List Token) (fuel : Nat) (hfuel : 0 < fuel) :
    Node.blockEntries? handles fuel (.blockEnd :: rest) = some ([], rest) := by
  obtain ⟨fuel, rfl⟩ := Nat.exists_eq_add_of_lt hfuel
  rw [Nat.zero_add]
  rfl

end

/-! ### All values -/

section

variable (fuel : Nat) (allowed : Bool) (ts : List Token)

theorem ofTokens?_flowSequence :
    Node.ofTokens? handles (fuel + 2) true allowed (.flowSequenceStart :: .flowSequenceEnd :: ts) =
      some (.sequence none none [], ts) := rfl

theorem ofTokens?_flowMapping :
    Node.ofTokens? handles (fuel + 2) true allowed (.flowMappingStart :: .flowMappingEnd :: ts) =
      some (.mapping none none [], ts) := rfl

theorem ofTokens?_blockSequence :
    Node.ofTokens? handles (fuel + 1) true allowed (.blockSequenceStart :: ts) =
      (Node.blockItems? handles fuel ts).bind fun x => some (.sequence none none x.1, x.2) := by
  rw [Node.ofTokens?]
  · simp [properties?]
  · simp

theorem ofTokens?_indentless :
    Node.ofTokens? handles (fuel + 1) true true (.blockEntry :: ts) =
      (Node.indentlessItems? handles fuel (.blockEntry :: ts)).bind
        fun x => some (.sequence none none x.1, x.2) := by
  rw [Node.ofTokens?]
  · simp [properties?]
  · simp

theorem ofTokens?_blockMapping :
    Node.ofTokens? handles (fuel + 1) true allowed (.blockMappingStart :: ts) =
      (Node.blockEntries? handles fuel ts).bind fun x => some (.mapping none none x.1, x.2) := by
  rw [Node.ofTokens?]
  · simp [properties?]
  · simp

end

section

variable {tokens : Bool → List Token} {node : Node String}

/-- An array with a start and an end is parsed if its last item is. -/
theorem ParsesAs.ofTokens?_array_false (h : ParsesAs handles tokens node) {init : List Json}
    (hinit : ∀ x ∈ init, Parses handles x) {fuel : Nat}
    (hfuel : 4 * (arrayTokens init tokens false).length ≤ fuel) (allowed : Bool)
    (rest : List Token) :
    Node.ofTokens? handles fuel true allowed (arrayTokens init tokens false ++ rest) =
      some (.sequence none none (itemNodes init ++ [node]), rest) := by
  have hpos := h.length_pos false
  have hlast : ∀ n, 4 * (tokens false).length + 1 < n →
      Node.blockItems? handles n (.blockEntry :: (tokens false ++ .blockEnd :: rest)) =
        some ([node], rest) := by
    intro n hn
    obtain ⟨n, rfl⟩ : ∃ k, n = k + 1 := ⟨n - 1, by omega⟩
    exact blockItems?_cons h (by omega) (blockItems?_blockEnd rest n (by omega))
  have htokens : arrayTokens init tokens false ++ rest = .blockSequenceStart ::
      (itemTokens init ++ .blockEntry :: (tokens false ++ .blockEnd :: rest)) := by
    simp [arrayTokens]
  simp only [arrayTokens, Bool.false_eq_true, if_false, List.length_append, List.length_cons,
    List.length_nil] at hfuel
  obtain ⟨fuel, rfl⟩ : ∃ n, fuel = n + 1 := ⟨fuel - 1, by omega⟩
  rw [htokens, ofTokens?_blockSequence, blockItems?_append hinit hlast fuel (by omega)]
  rfl

/-- An array without a start and an end is parsed if its last item is. -/
theorem ParsesAs.ofTokens?_array_true (h : ParsesAs handles tokens node) {init : List Json}
    (hinit : ∀ x ∈ init, Parses handles x) {fuel : Nat}
    (hfuel : 4 * (arrayTokens init tokens true).length ≤ fuel) {rest : List Token}
    (hrest : rest.head? ≠ some .blockEntry) :
    Node.ofTokens? handles fuel true true (arrayTokens init tokens true ++ rest) =
      some (.sequence none none (itemNodes init ++ [node]), rest) := by
  have hpos := h.length_pos false
  have hlast : ∀ n, 4 * (tokens false).length < n →
      Node.indentlessItems? handles n (.blockEntry :: (tokens false ++ rest)) =
        some ([node], rest) := by
    intro n hn
    obtain ⟨n, rfl⟩ : ∃ k, n = k + 1 := ⟨n - 1, by omega⟩
    exact indentlessItems?_cons h (by omega) (indentlessItems?_nil hrest n (by omega))
  have htokens : arrayTokens init tokens true ++ rest =
      itemTokens init ++ .blockEntry :: (tokens false ++ rest) := by
    simp [arrayTokens]
  obtain ⟨ts, hts⟩ : ∃ ts, itemTokens init ++ .blockEntry :: (tokens false ++ rest) =
      .blockEntry :: ts := by
    cases init <;> exact ⟨_, rfl⟩
  simp only [arrayTokens, if_true, List.length_append, List.length_cons] at hfuel
  obtain ⟨fuel, rfl⟩ : ∃ n, fuel = n + 1 := ⟨fuel - 1, by omega⟩
  have hread := indentlessItems?_append hinit hlast fuel (by omega) (by omega)
  rw [hts] at hread
  rw [htokens, hts, ofTokens?_indentless, hread]
  rfl

/-- An array is parsed if its last item is. -/
theorem ParsesAs.array (h : ParsesAs handles tokens node) {init : List Json}
    (hinit : ∀ x ∈ init, Parses handles x) :
    ParsesAs handles (arrayTokens init tokens)
      (.sequence none none (itemNodes init ++ [node])) where
  starts indentless := by
    cases indentless with
    | false => exact ⟨_, _, rfl, .inl .blockSequence⟩
    | true => cases init <;> exact ⟨_, _, rfl, .inr ⟨rfl, rfl⟩⟩
  reads fuel allowed indentless rest hfuel hrest := by
    cases indentless with
    | false => exact h.ofTokens?_array_false hinit hfuel allowed rest
    | true =>
      obtain ⟨rfl, hnext⟩ := hrest rfl
      exact h.ofTokens?_array_true hinit hfuel hnext

/-- An object is parsed if its last value is. -/
theorem ParsesAs.object (h : ParsesAs handles tokens node) {init : List (String × Json)}
    (hinit : ∀ m ∈ init, Parses handles m.2) (key : String) :
    ParsesAs handles (fun _ => objectTokens init key tokens)
      (.mapping none none (memberNodes init ++ [(stringNode key, node)])) where
  starts _ := ⟨_, _, rfl, .inl .blockMapping⟩
  reads fuel allowed _ rest hfuel _ := by
    have hlast : ∀ n, 4 * (tokens (isSimpleKey (.string key))).length + 5 < n →
        Node.blockEntries? handles n (.key :: stringToken key.toList :: .value ::
          (tokens (isSimpleKey (.string key)) ++ .blockEnd :: rest)) =
            some ([(stringNode key, node)], rest) := by
      intro n hn
      obtain ⟨n, rfl⟩ : ∃ k, n = k + 1 := ⟨n - 1, by omega⟩
      exact blockEntries?_cons h key (by omega) (by simp) (blockEntries?_blockEnd rest n (by omega))
    have htokens : objectTokens init key tokens ++ rest = .blockMappingStart ::
        (memberTokens init ++ .key :: stringToken key.toList :: .value ::
          (tokens (isSimpleKey (.string key)) ++ .blockEnd :: rest)) := by
      simp [objectTokens]
    simp only [objectTokens, List.length_append, List.length_cons, List.length_nil] at hfuel
    obtain ⟨fuel, rfl⟩ : ∃ n, fuel = n + 1 := ⟨fuel - 1, by omega⟩
    rw [htokens, ofTokens?_blockMapping, blockEntries?_append hinit (by simp) hlast fuel (by omega)]
    rfl

end

theorem parses_array {items : List Json} (h : ∀ x ∈ items, Parses handles x) :
    Parses handles (.array items) := by
  rcases List.eq_nil_or_concat items with rfl | ⟨init, x, rfl⟩
  · intro fuel allowed indentless rest hfuel _
    obtain ⟨fuel, rfl⟩ : ∃ n, fuel = n + 2 := ⟨fuel - 2, by simp [tokensOf] at hfuel; omega⟩
    exact ofTokens?_flowSequence fuel allowed rest
  · rw [List.concat_eq_append, List.forall_mem_append, List.forall_mem_singleton] at h
    have harray := h.2.parsesAs.array h.1
    intro fuel allowed indentless rest hfuel hrest
    rw [List.concat_eq_append, tokensOf_array] at hfuel ⊢
    rw [harray.reads fuel allowed indentless rest hfuel hrest]
    simp [nodeOf, itemNodes_eq_map]

theorem parses_object {members : List (String × Json)} (h : ∀ m ∈ members, Parses handles m.2) :
    Parses handles (.object members) := by
  rcases List.eq_nil_or_concat members with rfl | ⟨init, m, rfl⟩
  · intro fuel allowed indentless rest hfuel _
    obtain ⟨fuel, rfl⟩ : ∃ n, fuel = n + 2 := ⟨fuel - 2, by simp [tokensOf] at hfuel; omega⟩
    exact ofTokens?_flowMapping fuel allowed rest
  · rw [List.concat_eq_append, List.forall_mem_append, List.forall_mem_singleton] at h
    have hobject := h.2.parsesAs.object h.1 m.1
    intro fuel allowed indentless rest hfuel hrest
    rw [List.concat_eq_append, tokensOf_object] at hfuel ⊢
    rw [hobject.reads fuel allowed indentless rest hfuel hrest]
    simp [nodeOf, memberNodes_eq_map]

/-- The tokens of a value are read as its node. -/
theorem parses (handles : Handles) (j : Json) : Parses handles j := by
  induction j using Json.induction with
  | null | bool | number => exact parses_scalar (fun _ => rfl) rfl
  | string s => exact parses_string s
  | array items ih => exact parses_array ih
  | object members ih => exact parses_object ih

/-! ## Documents -/

/-- The tokens of a node are read as one document. -/
theorem ParsesAs.document? {tokens : Bool → List Token} {node : Node String}
    (h : ParsesAs defaultHandles tokens node) : document? (tokens false) = some (some node) := by
  have hread := h.reads (4 * (tokens false).length + 4) false false [] (by omega) (by simp)
  obtain ⟨t, ts, htokens, ht⟩ := h.starts false
  rw [List.append_nil] at hread
  rw [htokens] at hread ⊢
  have hfirst : firstDocument? (t :: ts) = some (node, []) := by
    rw [← hread]
    rcases ht with ht | ⟨ht, -⟩
    · cases ht <;> rfl
    · cases ht
  show (firstDocument? (t :: ts)).bind _ = _
  rw [hfirst]
  rfl

/-- The tokens of a value are read as one document. -/
theorem document?_tokensOf (j : Json) : document? (tokensOf false j) = some (some (nodeOf j)) :=
  (parses defaultHandles j).parsesAs.document?

/-! ## Anchors -/

/-- There is nothing to number in the nodes. -/
def Links (node : Node String) (linked : Node Nat) : Prop :=
  ∀ names, node.link? names = some (linked, names)

/-- Items in front of others. -/
theorem linkItems?_append {items : List Json} (h : ∀ x ∈ items, Links (nodeOf x) (nodeOf x))
    {names : AnchorNames} {nodes : List (Node String)} {linked : List (Node Nat)}
    (hnodes : Node.linkItems? names nodes = some (linked, names)) :
    Node.linkItems? names (itemNodes items ++ nodes) =
      some (itemNodes items ++ linked, names) := by
  induction items with
  | nil => exact hnodes
  | cons x items ih =>
    obtain ⟨hx, hitems⟩ := List.forall_mem_cons.1 h
    simp [itemNodes, Node.linkItems?, hx names, ih hitems]

/-- Members in front of others. -/
theorem linkEntries?_append {members : List (String × Json)}
    (h : ∀ m ∈ members, Links (nodeOf m.2) (nodeOf m.2)) {names : AnchorNames}
    {nodes : List (Node String × Node String)} {linked : List (Node Nat × Node Nat)}
    (hnodes : Node.linkEntries? names nodes = some (linked, names)) :
    Node.linkEntries? names (memberNodes members ++ nodes) =
      some (memberNodes members ++ linked, names) := by
  induction members with
  | nil => exact hnodes
  | cons m members ih =>
    obtain ⟨hm, hmembers⟩ := List.forall_mem_cons.1 h
    have hkey : Node.link? names (stringNode m.1) = some (stringNode m.1, names) := rfl
    simp [memberNodes, Node.linkEntries?, hkey, hm names, ih hmembers]

theorem Links.sequence {items : List (Node String)} {linked : List (Node Nat)}
    (h : ∀ names, Node.linkItems? names items = some (linked, names)) :
    Links (.sequence none none items) (.sequence none none linked) := by
  intro names
  simp [Node.link?, AnchorNames.number, h names]

theorem Links.mapping {entries : List (Node String × Node String)}
    {linked : List (Node Nat × Node Nat)}
    (h : ∀ names, Node.linkEntries? names entries = some (linked, names)) :
    Links (.mapping none none entries) (.mapping none none linked) := by
  intro names
  simp [Node.link?, AnchorNames.number, h names]

/-- There is nothing to number in the node of a value. -/
theorem link?_nodeOf (j : Json) (names : AnchorNames) :
    Node.link? names (nodeOf j) = some (nodeOf j, names) := by
  induction j using Json.induction generalizing names with
  | null | bool | number | string => rfl
  | array items ih =>
    refine Links.sequence (fun names => ?_) names
    have hlink : Node.linkItems? names (itemNodes items ++ []) =
        some (itemNodes items ++ [], names) := linkItems?_append ih rfl
    simpa using hlink
  | object members ih =>
    refine Links.mapping (fun names => ?_) names
    have hlink : Node.linkEntries? names (memberNodes members ++ []) =
        some (memberNodes members ++ [], names) := linkEntries?_append ih rfl
    simpa using hlink

end RouteDocs.Yaml
