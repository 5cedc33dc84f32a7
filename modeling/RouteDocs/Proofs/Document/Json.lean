import RouteDocs.Document.Json
import RouteDocs.Proofs.Document.Decode
import RouteDocs.Proofs.Json.Reader

/-!
# Documents read back from JSON

## Main statements

* `RawJson.shows`: JSON text shows the values it was written for.
* `Document.readJson?_printJson`: a document is read back from its JSON text.
-/

namespace RouteDocs

/-- Among members with different names, every field is found by its name. -/
theorem fieldValues?_map_fst {α : Type} {members : List (String × α)}
    (h : (members.map Prod.fst).Nodup) :
    fieldValues? (members.map Prod.fst) members = some (members.map fun x => some x.2) := by
  rw [fieldValues?, List.mapM_map]
  apply mapM_eq_pure
  intro x hx
  simp only [Function.comp_apply, filter_fst_eq h hx]
  rfl

namespace RawJson

/-- What is written for a value inside so many arrays and objects that `n` more may be opened. -/
def nested (n : Nat) (j : Json) : Nested := ⟨n + 1, ofJson j⟩

theorem mapM_nested (n : Nat) (members : List (String × Json)) :
    (ofMembers members).mapM
        (fun x => (RawString.value? x.1).map (String.ofList ·, Nested.mk (n + 1) x.2)) =
      some (members.map fun x => (x.1, nested n x.2)) := by
  rw [ofMembers_eq_map, List.mapM_map]
  apply mapM_eq_pure
  intro x _
  simp [RawString.value?_ofString, nested]

/-- JSON text shows the values it was written for. -/
theorem shows : view.Shows nested where
  string n s := by simp [view, nested, ofJson, RawString.value?_ofString]
  bool n b := rfl
  json n j hdepth hfree hordered := value_ofJson hdepth hfree hordered
  items n items := by
    simp [view, nested, ofJson, ofItems_eq_map, Nested.enter?, Function.comp_def]
  entries n members := by
    simpa [view, nested, ofJson, Nested.enter?] using mapM_nested n members
  fields n members h := by
    have hnames : (members.map fun x => (x.1, nested n x.2)).map Prod.fst = members.map Prod.fst := by
      simp
    have hfields := fieldValues?_map_fst (hnames ▸ h)
    rw [hnames] at hfields
    simpa [view, nested, ofJson, Nested.enter?, mapM_nested, Function.comp_def] using hfields

end RawJson

/-- A document without doubles that nests at most 127 deep is read back from its JSON text. -/
theorem Document.readJson?_printJson (d : Document) (hfree : d.toJson.IsFloatFree)
    (hdepth : d.toJson.depth ≤ 127) (hordered : d.IsOrdered) :
    Document.readJson? d.printJson = some d := by
  rw [readJson?, printJson, RawJson.read?_print hfree]
  exact Document.decode_eq RawJson.shows d hdepth hfree hordered

theorem Document.readJson?_printJson_users :
    Document.readJson? Document.users.printJson = some Document.users :=
  Document.readJson?_printJson Document.users (by decide) (by decide) (by decide)

end RouteDocs
