import RouteDocs.Proofs.Json.Last
import RouteDocs.Proofs.Yaml.LastLine
import RouteDocs.Proofs.Yaml.Printer
import RouteDocs.Proofs.Yaml.Value.Json

/-!
# Values at the end of a text

A text that lacks its last line feed is read as the value that was written, except that a string at
its end loses a line feed if it is written as a literal block.

## Main definitions

* `Denotes`: tokens are those of a value.
* `clipped`: a string as it is read at the end of a text.

## Main statements

* `exists_lastValue`: what is read at the end of a text.
* `read?_dropFeed`: the value of a text that lacks its last line feed.
-/

namespace RouteDocs.Yaml

open Value
open Text (dropFeed)

/-! ## Values -/

/-- The tokens are those of a value: they are parsed, there is nothing to number in their node, and
the value is loaded from it. -/
def Denotes (tokens : Bool → List Token) (j : Json) : Prop :=
  ∃ (node : Node String) (linked : Node Nat), ParsesAs defaultHandles tokens node ∧
    Links node linked ∧
      ∀ (t : Tree) (n : Nat), j.depth ≤ n → t.load n linked = pure (ofJson j)

theorem denotes_tokensOf {j : Json} (hfree : j.IsFloatFree) (hordered : j.IsOrdered) :
    Denotes (fun indentless => tokensOf indentless j) j :=
  ⟨nodeOf j, nodeOf j, (parses defaultHandles j).parsesAs, link?_nodeOf j,
    fun _ _ hn => Tree.load_nodeOf hn hfree hordered⟩

/-- A scalar that is not plain is a string. -/
theorem denotes_string {style : Style} (hstyle : style ≠ .plain) (s : String) :
    Denotes (fun _ => [.scalar style s]) (.string s) := by
  refine ⟨_, .scalar none { style := style, text := s }, parsesAs_scalar style s, fun _ => rfl,
    fun t n _ => ?_⟩
  rw [Tree.load_scalar]
  simp [Scalar.load?, localTag?, Scalar.value?, Scalar.value?.untagged, hstyle, ofJson]
  rfl

theorem Denotes.array {tokens : Bool → List Token} {x : Json} (h : Denotes tokens x)
    {init : List Json} (hfree : ∀ y ∈ init, y.IsFloatFree) (hordered : ∀ y ∈ init, y.IsOrdered) :
    Denotes (arrayTokens init tokens) (.array (init ++ [x])) := by
  obtain ⟨node, linked, hparses, hlink, hload⟩ := h
  refine ⟨_, .sequence none none (itemNodes init ++ [linked]), hparses.array fun y _ => parses _ y,
    .sequence fun names => linkItems?_append (fun y _ => link?_nodeOf y) ?_, fun t n hn => ?_⟩
  · simp [Node.linkItems?, hlink names]
  · obtain ⟨n, rfl, hdepth⟩ := Json.depth_array_le_iff.1 hn
    rw [List.forall_mem_append, List.forall_mem_singleton] at hdepth
    rw [ofJson, itemNodes_eq_map, itemsOfJson_eq_map, List.map_append]
    refine Tree.load_sequence (List.rel_append ?_ (.cons (hload t n hdepth.2) .nil))
    rw [List.forall₂_map_left_iff, List.forall₂_map_right_iff, List.forall₂_same]
    exact fun y hy => Tree.load_nodeOf (hdepth.1 y hy) (hfree y hy) (hordered y hy)

theorem Denotes.object {tokens : Bool → List Token} {x : Json} (h : Denotes tokens x)
    {init : List (String × Json)} {key : String} (hfree : ∀ m ∈ init, m.2.IsFloatFree)
    (hordered : ∀ m ∈ init, m.2.IsOrdered) (hkeys : (init ++ [(key, x)]).Pairwise (·.1 < ·.1)) :
    Denotes (fun _ => objectTokens init key tokens) (.object (init ++ [(key, x)])) := by
  obtain ⟨node, linked, hparses, hlink, hload⟩ := h
  refine ⟨_, .mapping none none (memberNodes init ++ [(stringNode key, linked)]),
    hparses.object (fun m _ => parses _ m.2) key,
    .mapping fun names => linkEntries?_append (fun m _ => link?_nodeOf m.2) ?_, fun t n hn => ?_⟩
  · have hkey : Node.link? names (stringNode key) = some (stringNode key, names) := rfl
    simp [Node.linkEntries?, hkey, hlink names]
  · obtain ⟨n, rfl, hdepth⟩ := Json.depth_object_le_iff.1 hn
    rw [List.forall_mem_append, List.forall_mem_singleton] at hdepth
    rw [ofJson]
    refine Tree.load_mapping ?_ (distinct_membersOfJson hkeys)
    rw [memberNodes_eq_map, membersOfJson_eq_map, List.map_append]
    refine List.rel_append ?_ (.cons ⟨Tree.load_stringNode key, hload t n hdepth.2⟩ .nil)
    rw [List.forall₂_map_left_iff, List.forall₂_map_right_iff, List.forall₂_same]
    exact fun m hm => ⟨Tree.load_stringNode m.1,
      Tree.load_nodeOf (hdepth.1 m hm) (hfree m hm) (hordered m hm)⟩

/-- A text with these tokens has the value. -/
theorem Denotes.read? {tokens : Bool → List Token} {j : Json} {text : List Char}
    (h : Denotes tokens j) (htokens : tokens? text = some (tokens false))
    (hdepth : j.depth ≤ Tree.depthLimit) : Value.read? text = some (ofJson j) := by
  obtain ⟨node, linked, hparses, hlink, hload⟩ := h
  have htree : Tree.read? text = some (.ofRoot linked) := by
    rw [Tree.read?]
    show (tokens? text).bind _ = _
    rw [htokens]
    show (document? (tokens false)).bind _ = _
    rw [hparses.document?]
    show (node.link? []).bind _ = _
    rw [hlink]
    rfl
  rw [Value.read?]
  show (Tree.read? text).bind _ = _
  rw [htree]
  exact congrArg (StateT.run' · (Tree.aliasLimit _)) (hload (.ofRoot linked) _ hdepth)

/-! ## The end of a text -/

/-- A string as it is read at the end of a text. -/
def clipped (s : String) : String := String.ofList (clipString s.toList)

theorem denotes_lastToken (s : String) :
    Denotes (fun _ => [lastToken s.toList]) (.string (clipped s)) := by
  by_cases hplain : Written.ofString s.toList = .plain
  · have hclipped : clipped s = s := by simp [clipped, clipString, hplain]
    have htokens : [lastToken s.toList] = [stringToken s.toList] := by
      simp [lastToken, stringToken, clipString, hplain]
    rw [htokens, hclipped]
    exact denotes_tokensOf (j := .string s) trivial trivial
  · have hstyle : (Written.ofString s.toList).style ≠ .plain := by
      cases hwritten : Written.ofString s.toList with
      | plain => exact absurd hwritten hplain
      | _ => simp [Written.style]
    exact denotes_string hstyle (clipped s)

/-- What is read of a value at the end of a text. -/
theorem exists_lastValue {j : Json} (hfree : j.IsFloatFree) (hordered : j.IsOrdered) :
    ∃ tokens, LastValue j tokens ∧ Denotes tokens (j.mapLast clipped) := by
  induction j using Json.lastInduction with
  | null => exact ⟨_, lastValue_plain (w := "null".toList) (by decide) (fun _ _ _ => rfl),
      denotes_tokensOf hfree hordered⟩
  | bool b =>
    cases b with
    | false => exact ⟨_, lastValue_plain (w := "false".toList) (by decide) (fun _ _ _ => rfl),
        denotes_tokensOf hfree hordered⟩
    | true => exact ⟨_, lastValue_plain (w := "true".toList) (by decide) (fun _ _ _ => rfl),
        denotes_tokensOf hfree hordered⟩
  | number m =>
    cases m with
    | whole m => exact ⟨_, lastValue_plain (plainAllowed_integer m.val) (fun _ _ _ => rfl),
        denotes_tokensOf hfree hordered⟩
    | float x => exact absurd hfree id
  | string s => exact ⟨_, lastValue_string s, denotes_lastToken s⟩
  | nil => exact ⟨_, lastValue_nil, denotes_tokensOf hfree hordered⟩
  | array init x ih =>
    rw [Json.isFloatFree_array_iff, List.forall_mem_append, List.forall_mem_singleton] at hfree
    rw [Json.isOrdered_array_iff, List.forall_mem_append, List.forall_mem_singleton] at hordered
    obtain ⟨tokens, hlast, hdenotes⟩ := ih hfree.2 hordered.2
    refine ⟨_, lastValue_array (fun y hy => readsBack (hfree.1 y hy)) hlast, ?_⟩
    rw [Json.mapLast_array]
    exact hdenotes.array hfree.1 hordered.1
  | empty => exact ⟨_, lastValue_empty, denotes_tokensOf hfree hordered⟩
  | object init m ih =>
    rw [Json.isFloatFree_object_iff, List.forall_mem_append, List.forall_mem_singleton] at hfree
    obtain ⟨hkeys, hordered⟩ := Json.isOrdered_object_iff.1 hordered
    rw [List.forall_mem_append, List.forall_mem_singleton] at hordered
    obtain ⟨tokens, hlast, hdenotes⟩ := ih hfree.2 hordered.2
    refine ⟨fun _ => objectTokens init m.1 tokens,
      lastValue_object (fun n hn => readsBack (hfree.1 n hn)) hlast, ?_⟩
    rw [Json.mapLast_object]
    exact hdenotes.object hfree.1 hordered.1 (by simpa [List.pairwise_append] using hkeys)

/-- An object that is written as a text is read from it without the line feed at its end, and with a
line feed in front. -/
theorem read?_dropFeed {members : List (String × Json)} (hne : members ≠ [])
    (hfree : (Json.object members).IsFloatFree) (hordered : (Json.object members).IsOrdered)
    (hdepth : (Json.object members).depth ≤ Tree.depthLimit) :
    Value.read? ('\n' :: dropFeed (entryLines 0 true (membersOfJson members))) =
      some (ofJson ((Json.object members).mapLast clipped)) := by
  have hdepth' := Json.depth_mapLast_le (f := clipped) hdepth
  have hallowed : ('\n' :: dropFeed (entryLines 0 true (membersOfJson members))).all isAllowed =
      true := by
    refine List.all_eq_true.2 (List.forall_mem_cons.2 ⟨by decide, fun c hc => ?_⟩)
    exact isAllowed_of_isPrintable
      (printable_members hfree 0 c ((Text.dropFeed_prefix _).subset hc))
  obtain ⟨init, m, rfl⟩ := (List.eq_nil_or_concat members).resolve_left hne
  rw [List.concat_eq_append] at *
  rw [Json.isFloatFree_object_iff, List.forall_mem_append, List.forall_mem_singleton] at hfree
  obtain ⟨hkeys, hordered⟩ := Json.isOrdered_object_iff.1 hordered
  rw [List.forall_mem_append, List.forall_mem_singleton] at hordered
  obtain ⟨tokens, hlast, hdenotes⟩ := exists_lastValue hfree.2 hordered.2
  have hline := lastLine_members (fun n hn => readsBack (hfree.1 n hn)) hlast 0
  have hobject := hdenotes.object hfree.1 hordered.1
    (by simpa [List.pairwise_append] using hkeys)
  rw [Json.mapLast_object] at hdepth' ⊢
  exact hobject.read? (hline.tokens?_eq hallowed) hdepth'

end RouteDocs.Yaml
