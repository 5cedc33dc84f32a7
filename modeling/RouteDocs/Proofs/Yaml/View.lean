import RouteDocs.Proofs.Document.Decode
import RouteDocs.Proofs.Yaml.Printer
import RouteDocs.Proofs.Yaml.Node
import RouteDocs.Yaml.View

/-!
# Values read back from nodes

## Main statements

* `Tree.json_nodeOf`: the JSON value of a node.
* `Tree.shows`: nodes show the values that they stand for.
-/

namespace RouteDocs.Yaml

open Value

/-! ## Scalars -/

theorem json?_string (s : String) :
    Scalar.json? { style := (Written.ofString s.toList).style, text := s } = some (.string s) := by
  cases hwritten : Written.ofString s.toList with
  | plain =>
    have hvalue := Plain.value?_of_ambiguous (ofString_eq_plain hwritten).1
    rw [String.ofList_toList] at hvalue
    simp [Scalar.json?, localTag?, Scalar.value?, Scalar.value?.untagged, Written.style, hvalue, toJson]
  | _ => rfl

theorem json?_whole (n : Whole) :
    Scalar.json? { text := String.ofList ((Number.whole n).text numberLayout) } =
      some (.number (.whole n)) := by
  have hvalue := Plain.value?_integer n
  simp [Scalar.json?, localTag?, Scalar.value?, Scalar.value?.untagged, Number.text, hvalue, toJson,
    numberJson]

theorem json?_bool (b : Bool) : Scalar.json? { text := boolString b } = some (.bool b) := by
  cases b <;> rfl

theorem json?_null : Scalar.json? { text := "null" } = some .null := rfl

namespace Tree

variable {t : Tree}

theorem json_scalar (n : Nat) (s : Scalar) : t.json n (.scalar none s) = StateT.lift s.json? := by
  cases n <;> rfl

theorem string_stringNode (s : String) : t.string (stringNode s) = pure s := rfl

/-- A node has the value that it was made of. -/
theorem json_nodeOf {n : Nat} {j : Json} (hn : j.depth ≤ n) (hfree : j.IsFloatFree)
    (hordered : j.IsOrdered) : t.json n (nodeOf j) = pure j := by
  induction j using Json.induction generalizing n with
  | null => exact (json_scalar n _).trans (congrArg StateT.lift json?_null)
  | bool b => exact (json_scalar n _).trans (congrArg StateT.lift (json?_bool b))
  | number m =>
    cases m with
    | whole m => exact (json_scalar n _).trans (congrArg StateT.lift (json?_whole m))
    | float x => exact absurd hfree id
  | string s => exact (json_scalar n _).trans (congrArg StateT.lift (json?_string s))
  | array items ih =>
    obtain ⟨n, rfl, hdepth⟩ := Json.depth_array_le_iff.1 hn
    have hitem : ∀ x ∈ items, t.json n (nodeOf x) = pure (id x) := fun x hx =>
      ih x hx (hdepth x hx) (Json.isFloatFree_array_iff.1 hfree x hx)
        (Json.isOrdered_array_iff.1 hordered x hx)
    have hitems : (items.map nodeOf).mapM (t.json n) = pure items := by
      rw [List.mapM_map]
      exact (mapM_eq_pure hitem).trans (by rw [List.map_id])
    rw [nodeOf, itemNodes_eq_map]
    simp [json, follow, localTag?, hitems]
  | object members ih =>
    obtain ⟨n, rfl, hdepth⟩ := Json.depth_object_le_iff.1 hn
    obtain ⟨hkeys, hvalues⟩ := Json.isOrdered_object_iff.1 hordered
    have hmember : ∀ m ∈ members, Prod.mk m.1 <$> t.json n (nodeOf m.2) = pure (id m) := by
      intro m hm
      rw [ih m hm (hdepth m hm) (Json.isFloatFree_object_iff.1 hfree m hm) (hvalues m hm), map_pure]
      rfl
    have hmembers := mapM_eq_pure hmember
    rw [List.map_id] at hmembers
    rw [nodeOf, memberNodes_eq_map]
    simp [json, follow, localTag?, Function.comp_def, string_stringNode, hmembers,
      Json.ofMembers_eq hkeys]

/-- What stands for a value inside so many collections that `n` more may be opened. -/
def inside (n : Nat) (j : Json) : Inside := ⟨n, nodeOf j⟩

theorem stringEntries_memberNodes (n : Nat) (members : List (String × Json)) :
    t.stringEntries n (memberNodes members) = pure (members.map fun m => (m.1, inside n m.2)) := by
  simp [stringEntries, memberNodes_eq_map, Function.comp_def, string_stringNode, inside]

/-- Among members with different names, every field is found by its name. -/
theorem mapM_fieldValue {members : List (String × Inside)} (h : (members.map Prod.fst).Nodup) :
    (members.map Prod.fst).mapM (fieldValue members) =
      (pure (members.map fun m => some m.2) : Reading (List (Option Inside))) := by
  rw [List.mapM_map]
  apply mapM_eq_pure
  intro m hm
  simp only [Function.comp_apply, fieldValue, filter_fst_eq h hm]

/-- Nodes show the values that they stand for. -/
theorem shows (t : Tree) : t.view.Shows inside where
  string n s := rfl
  bool n b := by cases b <;> rfl
  json n j hdepth hfree hordered := json_nodeOf hdepth hfree hordered
  items n items := by
    simp [view, inside, nodeOf, follow, enter, itemNodes_eq_map, Function.comp_def]
    rfl
  entries n members := by
    simp [view, inside, nodeOf, follow, enter, stringEntries_memberNodes]
  fields n members h := by
    have hnames : (members.map fun m => (m.1, inside n m.2)).map Prod.fst = members.map Prod.fst := by
      simp
    have hfields := mapM_fieldValue (hnames ▸ h)
    rw [hnames] at hfields
    simp [view, inside, nodeOf, follow, enter, stringEntries_memberNodes, Function.comp_def] at hfields ⊢
    exact hfields

end Tree

end RouteDocs.Yaml
