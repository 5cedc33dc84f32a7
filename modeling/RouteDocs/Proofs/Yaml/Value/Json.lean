import RouteDocs.Proofs.Document.Decode
import RouteDocs.Proofs.Yaml.Node
import RouteDocs.Proofs.Yaml.Value.Merge
import RouteDocs.Yaml.Value.Load

/-!
# JSON values as YAML values

A JSON value is the same in YAML. The keys of its objects are different, so no entry is lost when
its nodes are loaded, and where none of them is the merge key nothing is merged.

## Main definition

* `Json.HasNoMergeKey`: there is no merge key in the value.

## Main statements

* `Tree.load_nodeOf`: a value is loaded from its node.
* `Value.merge?_ofJson`: without merge keys a merge leaves a value as it is.
-/

namespace RouteDocs

/-! ## Merge keys -/

namespace Json

/-- If the value is an object, no member has the name of the merge key. -/
def LacksMergeKey : Json → Prop
  | .object members => ∀ m ∈ members, m.1 ≠ "<<"
  | _ => True

/-- There is no merge key in the value. -/
def HasNoMergeKey (j : Json) : Prop := j.Everywhere LacksMergeKey

instance : DecidablePred LacksMergeKey
  | .object members => inferInstanceAs (Decidable (∀ m ∈ members, m.1 ≠ "<<"))
  | .number _ | .null | .bool _ | .string _ | .array _ => isTrue trivial

instance (j : Json) : Decidable j.HasNoMergeKey := decideEverywhere j

theorem hasNoMergeKey_array_iff {items : List Json} :
    HasNoMergeKey (.array items) ↔ ∀ x ∈ items, HasNoMergeKey x := by
  simp [HasNoMergeKey, everywhere_array_iff, LacksMergeKey]

theorem hasNoMergeKey_object_iff {members : List (String × Json)} :
    HasNoMergeKey (.object members) ↔
      (∀ m ∈ members, m.1 ≠ "<<") ∧ ∀ m ∈ members, HasNoMergeKey m.2 := by
  simp only [HasNoMergeKey, everywhere_object_iff, LacksMergeKey]

end Json

namespace Yaml

open Value

/-! ## Entries with distinct keys -/

namespace Entries

variable {es fs : Entries} {k x : Value}

theorem insert_of_new (h : ∀ e ∈ es, e.1.same k = false) : es.insert k x = es ++ [(k, x)] := by
  rcases insert_cases es k x with ⟨-, hes⟩ | ⟨front, e, back, rfl, -, hek, -⟩
  · exact hes
  · simp [h e (by simp)] at hek

/-- Entries with distinct keys are kept as they are. -/
theorem ofList_of_distinct (h : fs.Distinct) : ofList fs = fs := by
  have hfold : ∀ es : Entries, (es ++ fs).Distinct →
      fs.foldl (fun es e => es.insert e.1 e.2) es = es ++ fs := by
    clear h
    induction fs with
    | nil => simp
    | cons f fs ih =>
      intro es hes
      have hnew : ∀ e ∈ es, e.1.same f.1 = false := fun e he =>
        ((List.pairwise_append.1 hes).2.2 e he f List.mem_cons_self).1
      rw [List.foldl_cons, insert_of_new hnew, ih _ (by simpa using hes)]
      simp
  simpa [ofList] using hfold [] (by simpa using h)

end Entries

theorem itemsOfJson_eq_map (items : List Json) : itemsOfJson items = items.map ofJson := by
  induction items with
  | nil => rfl
  | cons x items ih => rw [itemsOfJson, ih, List.map_cons]

theorem membersOfJson_eq_map (members : List (String × Json)) :
    membersOfJson members = members.map fun m => (.string m.1, ofJson m.2) := by
  induction members with
  | nil => rfl
  | cons m members ih => rw [membersOfJson, ih, List.map_cons]

/-- Members with different names have different keys. -/
theorem distinct_membersOfJson {members : List (String × Json)}
    (h : members.Pairwise (·.1 < ·.1)) : Entries.Distinct (membersOfJson members) := by
  rw [membersOfJson_eq_map, Entries.Distinct, List.pairwise_map]
  refine h.imp fun {m n} hlt => ?_
  have hne : m.1 ≠ n.1 := fun heq => String.lt_irrefl _ (heq ▸ hlt)
  simp [Entries.Apart, same, hne, Ne.symm hne]

/-! ## Loading -/

namespace Tree

variable {t : Tree} {n : Nat}

theorem load_scalar (n : Nat) (s : Scalar) : t.load n (.scalar none s) = StateT.lift s.load? := by
  cases n <;> rfl

theorem mapM_of_forall₂ {α β : Type} {f : α → Reading β} {as : List α} {bs : List β}
    (h : List.Forall₂ (fun a b => f a = pure b) as bs) : as.mapM f = pure bs := by
  induction h with
  | nil => rfl
  | cons ha _ ih => simp [ha, ih]

theorem load_sequence {nodes : List (Node Nat)} {vs : List Value}
    (h : List.Forall₂ (fun x v => t.load n x = pure v) nodes vs) :
    t.load (n + 1) (.sequence none none nodes) = pure (.sequence vs) := by
  simp [load, follow, mapM_of_forall₂ h, withTag, localTag?]

theorem load_mapping {entries : List (Node Nat × Node Nat)} {es : Entries}
    (h : List.Forall₂ (fun e f => t.load n e.1 = pure f.1 ∧ t.load n e.2 = pure f.2) entries es)
    (hes : es.Distinct) :
    t.load (n + 1) (.mapping none none entries) = pure (.mapping es) := by
  have hentries : entries.mapM (fun e => do
      let k ← t.load n e.1
      Prod.mk k <$> t.load n e.2) = pure es :=
    mapM_of_forall₂ (h.imp fun e f hef => by simp [hef])
  simp [load, follow, hentries, withTag, localTag?, Entries.ofList_of_distinct hes]

theorem load?_string (s : String) :
    Scalar.load? { style := (Written.ofString s.toList).style, text := s } = some (.string s) := by
  cases hwritten : Written.ofString s.toList with
  | plain =>
    have hvalue := Plain.value?_of_ambiguous (ofString_eq_plain hwritten).1
    rw [String.ofList_toList] at hvalue
    simp [Scalar.load?, localTag?, Scalar.value?, Scalar.value?.untagged, Written.style, hvalue]
  | _ => rfl

theorem load_stringNode (s : String) : t.load n (stringNode s) = pure (.string s) :=
  (load_scalar n _).trans (congrArg StateT.lift (load?_string s))

/-- A value is loaded from its node. -/
theorem load_nodeOf {j : Json} (hn : j.depth ≤ n) (hfree : j.IsFloatFree)
    (hordered : j.IsOrdered) : t.load n (nodeOf j) = pure (ofJson j) := by
  induction j using Json.induction generalizing n with
  | null => exact load_scalar n _
  | bool b =>
    refine (load_scalar n _).trans ?_
    cases b <;> rfl
  | number m =>
    cases m with
    | whole m =>
      have hvalue := Plain.value?_integer m
      have hload : Scalar.load? { text := String.ofList ((Number.whole m).text numberLayout) } =
          some (.number (.whole m)) := by
        simp [Scalar.load?, localTag?, Scalar.value?, Scalar.value?.untagged, Number.text, hvalue]
      exact (load_scalar n _).trans (congrArg StateT.lift hload)
    | float x => exact absurd hfree id
  | string s => exact load_stringNode s
  | array items ih =>
    obtain ⟨n, rfl, hdepth⟩ := Json.depth_array_le_iff.1 hn
    rw [nodeOf, ofJson, itemNodes_eq_map, itemsOfJson_eq_map]
    apply load_sequence
    rw [List.forall₂_map_left_iff, List.forall₂_map_right_iff, List.forall₂_same]
    exact fun x hx => ih x hx (hdepth x hx) (Json.isFloatFree_array_iff.1 hfree x hx)
      (Json.isOrdered_array_iff.1 hordered x hx)
  | object members ih =>
    obtain ⟨n, rfl, hdepth⟩ := Json.depth_object_le_iff.1 hn
    obtain ⟨hkeys, hvalues⟩ := Json.isOrdered_object_iff.1 hordered
    rw [nodeOf, ofJson]
    refine load_mapping ?_ (distinct_membersOfJson hkeys)
    rw [memberNodes_eq_map, membersOfJson_eq_map, List.forall₂_map_left_iff,
      List.forall₂_map_right_iff, List.forall₂_same]
    exact fun m hm => ⟨load_stringNode m.1, ih m hm (hdepth m hm)
      (Json.isFloatFree_object_iff.1 hfree m hm) (hvalues m hm)⟩

end Tree

/-! ## Merging -/

namespace Value

/-- What stands in a value without merge keys is a value without merge keys. -/
theorem contains_ofJson {j : Json} {w : Value} (h : j.HasNoMergeKey) (hw : (ofJson j).Contains w) :
    ∃ k : Json, w = ofJson k ∧ k.HasNoMergeKey := by
  induction hw with
  | refl => exact ⟨j, rfl, h⟩
  | tail _ hpart ih =>
    obtain ⟨k, rfl, hk⟩ := ih
    cases k with
    | null | bool | number | string => cases hpart
    | array items =>
      rw [ofJson, part_sequence_iff, itemsOfJson_eq_map, List.mem_map] at hpart
      obtain ⟨x, hx, rfl⟩ := hpart
      exact ⟨x, rfl, Json.hasNoMergeKey_array_iff.1 hk x hx⟩
    | object members =>
      simp only [ofJson, part_mapping_iff, membersOfJson_eq_map, List.mem_map] at hpart
      obtain ⟨-, ⟨m, hm, rfl⟩, rfl⟩ := hpart
      exact ⟨m.2, rfl, (Json.hasNoMergeKey_object_iff.1 hk).2 m hm⟩

/-- Without merge keys a merge leaves a value as it is. -/
theorem merge?_ofJson {j : Json} (h : j.HasNoMergeKey) : (ofJson j).merge? = some (ofJson j) := by
  refine merge?_eq_self fun es hes => Entries.get?_eq_none_iff.2 ?_
  obtain ⟨k, heq, hk⟩ := contains_ofJson h hes
  cases k with
  | object members =>
    cases heq
    rw [membersOfJson_eq_map]
    refine List.forall_mem_map.2 fun m hm => ?_
    simpa [mergeKey, same] using (Json.hasNoMergeKey_object_iff.1 hk).1 m hm
  | null | bool | number | string | array => cases heq

/-! ### Back to JSON -/

theorem itemsToJson_eq_map (items : List Value) : itemsToJson items = items.map toJson := by
  induction items with
  | nil => rfl
  | cons x items ih => rw [itemsToJson, ih, List.map_cons]

theorem entriesToJson_eq_map (es : Entries) :
    entriesToJson es = es.map fun e => (e.1.keyString, e.2.toJson) := by
  induction es with
  | nil => rfl
  | cons e es ih => rw [entriesToJson, ih, List.map_cons]

end Value

end Yaml

end RouteDocs
