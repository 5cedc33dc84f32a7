import RouteDocs.Document.Decode
import RouteDocs.Proofs.Json.Basic

/-!
# A decoded document

A format that shows JSON values as they are gives back the document that a value was made of.

## Main definitions

* `DataView.Shows`: the view of a format shows JSON values as they are.
* `Document.IsOrdered`: the JSON values that a document passes on are ordered.

## Main statements

* `Document.decode_eq`: a document is decoded from what the format holds for its JSON value.
-/

namespace RouteDocs

variable {m : Type → Type} [Monad m] {α β : Type} {v : DataView m α} {rep : Nat → Json → α}

/-- What stands for a JSON value inside so many arrays and objects that `n` more may be opened is
`rep n j`, and the view shows it as that value. -/
structure DataView.Shows (v : DataView m α) (rep : Nat → Json → α) : Prop where
  string : ∀ n s, v.string (rep n (.string s)) = pure s
  bool : ∀ n b, v.bool (rep n (.bool b)) = pure b
  json : ∀ n j, j.depth ≤ n → j.IsFloatFree → j.IsOrdered → v.json (rep n j) = pure j
  items : ∀ n items, v.items (rep (n + 1) (.array items)) = pure (items.map (rep n))
  entries : ∀ n members,
    v.entries (rep (n + 1) (.object members)) = pure (members.map fun m => (m.1, rep n m.2))
  fields : ∀ n members, (members.map Prod.fst).Nodup →
    v.fields (members.map Prod.fst) (rep (n + 1) (.object members)) =
      pure (members.map fun m => some (rep n m.2))

section

variable [LawfulMonad m]

/-! ## Records and maps -/

theorem DataView.Shows.record (h : v.Shows rep) (n : Nat) (members : List (String × Json))
    (hnodup : (members.map Prod.fst).Nodup) :
    v.record (members.map Prod.fst) (rep (n + 1) (.object members)) =
      pure (members.map fun m => rep n m.2) := by
  rw [DataView.record, h.fields n members hnodup, pure_bind, List.mapM_map]
  exact List.mapM_pure

theorem DataView.Shows.single (h : v.Shows rep) (n : Nat) (name : String) (j : Json) :
    v.single name (rep (n + 1) (.object [(name, j)])) = pure (rep n j) := by
  have hrecord : v.record [name] _ = _ := h.record n [(name, j)] (by simp)
  rw [DataView.single, hrecord, pure_bind]
  rfl

/-- Among members with different names, each one is alone with its name. -/
theorem filter_fst_eq {members : List (String × α)} (hnodup : (members.map Prod.fst).Nodup)
    {x : String × α} (hx : x ∈ members) : members.filter (·.1 = x.1) = [x] := by
  induction members with
  | nil => cases hx
  | cons y members ih =>
    obtain ⟨hy, hnodup⟩ := List.nodup_cons.1 hnodup
    rcases List.mem_cons.1 hx with rfl | hx
    · have hrest : members.filter (·.1 = x.1) = [] := by
        refine List.filter_eq_nil_iff.2 fun z hz heq => hy ?_
        rw [← of_decide_eq_true heq]
        exact List.mem_map_of_mem hz
      simp [hrest]
    · have hne : y.1 ≠ x.1 := fun heq => hy (heq ▸ List.mem_map_of_mem hx)
      simpa [hne] using ih hnodup hx

theorem mapM_eq_pure {f : α → m β} {g : α → β} {l : List α} (h : ∀ x ∈ l, f x = pure (g x)) :
    l.mapM f = pure (l.map g) := by
  induction l with
  | nil => simp
  | cons x l ih =>
    have htail : ∀ y ∈ l, f y = pure (g y) := fun y hy => h y (List.mem_cons_of_mem _ hy)
    simp [h x List.mem_cons_self, ih htail]

/-- A dictionary is read if each of its values is. -/
theorem DataView.Shows.dict (h : v.Shows rep) {n : Nat} {decode : α → m β} {toJson : β → Json}
    (d : Dict β) (hd : ∀ e ∈ d.toList, decode (rep n (toJson e.2)) = pure e.2) :
    v.dict decode (rep (n + 1) (.ofDict (d.map toJson))) = pure d := by
  have hvalue : ∀ e ∈ d.toList, Prod.mk e.1 <$> decode (rep n (toJson e.2)) = pure (id e) := by
    intro e he
    rw [hd e he, map_pure]
    rfl
  have hentries := mapM_eq_pure hvalue
  rw [DataView.dict, Json.ofDict, h.entries, pure_bind]
  simp [Dict.map, Function.comp_def, hentries]

/-! ## The parts of a document -/

variable {n : Nat}

theorem Info.decode_eq (h : v.Shows rep) (i : Info) (hn : i.toJson.depth ≤ n) :
    Info.decode v (rep n i.toJson) = pure i := by
  obtain ⟨n, rfl, -⟩ := Json.depth_object_le_iff.1 hn
  have hrecord : v.record ["title", "description"] (rep (n + 1) i.toJson) = _ :=
    h.record n [("title", .string i.title), ("description", .string i.description)]
      (by simp)
  simp [Info.decode, hrecord, h.string]

theorem Parameter.decode_eq (h : v.Shows rep) (p : Parameter) (hn : p.toJson.depth ≤ n) :
    Parameter.decode v (rep n p.toJson) = pure p := by
  obtain ⟨n, rfl, hfields⟩ := Json.depth_object_le_iff.1 hn
  obtain ⟨n, rfl, -⟩ := Json.depth_object_le_iff.1 (hfields ("schema", p.schemaJson) (by simp))
  have hrecord : v.record ["name", "in", "required", "schema"] (rep (n + 2) p.toJson) = _ :=
    h.record (n + 1) [("name", .string p.name), ("in", .string p.location),
      ("required", .bool p.required), ("schema", p.schemaJson)] (by simp)
  have hschema : v.single "type" (rep (n + 1) p.schemaJson) = _ := h.single n "type" _
  simp [Parameter.decode, hrecord, hschema, h.string, h.bool]

theorem MediaType.decode_eq (h : v.Shows rep) (t : MediaType) (hn : t.toJson.depth ≤ n) :
    MediaType.decode v (rep n t.toJson) = pure t := by
  obtain ⟨n, rfl, hfields⟩ := Json.depth_object_le_iff.1 hn
  obtain ⟨n, rfl, -⟩ := Json.depth_object_le_iff.1 (hfields ("schema", _) List.mem_cons_self)
  have hschema : v.single "schema" (rep (n + 2) t.toJson) = _ := h.single (n + 1) "schema" _
  have hrecord : v.record ["type", "example"] (rep (n + 1) _) = _ :=
    h.record n [("type", .string t.type), ("example", .string t.sample)] (by simp)
  simp [MediaType.decode, hschema, hrecord, h.string]

/-- The responses of an operation are ordered. -/
def Operation.IsOrdered (o : Operation) : Prop := ∀ e ∈ o.responses.toList, e.2.IsOrdered

/-- The responses and the components of a document are ordered, as in all documents that are built
or read. -/
structure Document.IsOrdered (d : Document) : Prop where
  operations : ∀ item ∈ d.paths.toList, ∀ o ∈ item.2.toList, o.2.IsOrdered
  components : d.components.IsOrdered

theorem Operation.decode_eq (h : v.Shows rep) (o : Operation) (hn : o.toJson.depth ≤ n)
    (hfree : o.toJson.IsFloatFree) (hordered : o.IsOrdered) :
    Operation.decode v (rep n o.toJson) = pure o := by
  obtain ⟨n, rfl, hdepth⟩ := Json.depth_object_le_iff.1 hn
  have hfields := Json.isFloatFree_object_iff.1 hfree
  simp only [List.forall_mem_cons] at hdepth hfields
  obtain ⟨-, hparameters, hresponses, hbody, -⟩ := hdepth
  obtain ⟨n, rfl, hparameter⟩ := Json.depth_array_le_iff.1 hparameters
  obtain ⟨k, rfl, hcontent⟩ := Json.depth_ofDict_map_le_iff.1
    (Json.depth_object_le_succ_iff.1 hbody ("content", _) List.mem_cons_self)
  have hresponse := Json.depth_object_le_succ_iff.1 hresponses
  have hresponseFree := Json.isFloatFree_object_iff.1 hfields.2.2.1
  -- each field is read back
  have hrecord : v.record ["description", "parameters", "responses", "requestBody"]
      (rep (k + 3) o.toJson) = _ :=
    h.record (k + 2) [("description", .string o.description),
      ("parameters", .array (o.parameters.map Parameter.toJson)),
      ("responses", .ofDict o.responses),
      ("requestBody", .object [("content", .ofDict (o.requestBody.map MediaType.toJson))])]
      (by simp)
  have hps : (o.parameters.map fun p => rep (k + 1) p.toJson).mapM (Parameter.decode v) =
      pure o.parameters := by
    rw [List.mapM_map]
    refine (mapM_eq_pure fun p hp => ?_).trans (by rw [List.map_id])
    exact Parameter.decode_eq h p (hparameter _ (List.mem_map_of_mem hp))
  have hrs : v.dict v.json (rep (k + 2) (.ofDict o.responses)) = pure o.responses := by
    have hdict : v.dict v.json (rep (k + 2) (.ofDict (o.responses.map id))) = pure o.responses :=
      h.dict o.responses fun e he =>
        h.json _ _ (hresponse e he) (hresponseFree e he) (hordered e he)
    rwa [Dict.map_id] at hdict
  have hsingle := h.single (k + 1) "content" (.ofDict (o.requestBody.map MediaType.toJson))
  have hts := h.dict o.requestBody fun e he => MediaType.decode_eq h e.2 (hcontent e he)
  simp [Operation.decode, hrecord, h.string, h.items, Function.comp_def, hps, hrs, hsingle, hts]

theorem PathItem.decode_eq (h : v.Shows rep) (item : PathItem) (hn : item.toJson.depth ≤ n)
    (hfree : item.toJson.IsFloatFree) (hordered : ∀ e ∈ item.toList, e.2.IsOrdered) :
    v.dict (Operation.decode v) (rep n item.toJson) = pure item := by
  obtain ⟨n, rfl, hdepth⟩ := Json.depth_ofDict_map_le_iff.1 hn
  have hfields := Json.isFloatFree_ofDict_map_iff.1 hfree
  apply h.dict item
  intro e he
  exact Operation.decode_eq h e.2 (hdepth e he) (hfields e he) (hordered e he)

/-- A document is decoded from what a format holds for its JSON value. -/
theorem Document.decode_eq (h : v.Shows rep) (d : Document) (hn : d.toJson.depth ≤ n)
    (hfree : d.toJson.IsFloatFree) (hordered : d.IsOrdered) :
    Document.decode v (rep n d.toJson) = pure d := by
  obtain ⟨n, rfl, hdepth⟩ := Json.depth_object_le_iff.1 hn
  have hfields := Json.isFloatFree_object_iff.1 hfree
  simp only [List.forall_mem_cons] at hdepth hfields
  obtain ⟨-, hinfo, hpaths, hcomponents, -⟩ := hdepth
  obtain ⟨n, rfl, hitem⟩ := Json.depth_ofDict_map_le_iff.1 hpaths
  have hitemFree := Json.isFloatFree_ofDict_map_iff.1 hfields.2.2.1
  have hrecord : v.record ["openapi", "info", "paths", "components"]
      (rep (n + 2) d.toJson) = _ :=
    h.record (n + 1) [("openapi", .string d.openapi), ("info", d.info.toJson),
      ("paths", .ofDict (d.paths.map PathItem.toJson)), ("components", d.components)] (by simp)
  have hitems : v.dict (v.dict (Operation.decode v))
      (rep (n + 1) (.ofDict (d.paths.map PathItem.toJson))) = pure d.paths := by
    apply h.dict d.paths
    intro e he
    exact PathItem.decode_eq h e.2 (hitem e he) (hitemFree e he) (hordered.operations e he)
  have hjson := h.json _ _ hcomponents hfields.2.2.2.1 hordered.components
  simp [Document.decode, hrecord, h.string, Info.decode_eq h d.info hinfo, hitems, hjson]

end

/-! ## An example -/

instance (o : Operation) : Decidable o.IsOrdered :=
  inferInstanceAs (Decidable (∀ e ∈ o.responses.toList, e.2.IsOrdered))

instance (d : Document) : Decidable d.IsOrdered :=
  decidable_of_iff ((∀ item ∈ d.paths.toList, ∀ o ∈ item.2.toList, o.2.IsOrdered) ∧
    d.components.IsOrdered) ⟨fun h => ⟨h.1, h.2⟩, fun h => ⟨h.operations, h.components⟩⟩

/-- A document with one operation, and with strings and numbers that are written in several ways. -/
def Document.users : Document where
  openapi := "3.0.2"
  info := { title := "Users: all", description := "the \"users\"\n\n  of C:\\" }
  paths := Dict.empty.insert "/users/{id}" (Dict.empty.insert "get"
    { description := "# not a comment"
      parameters := [⟨"id", "path", true, "integer"⟩]
      responses := Dict.ofList [("200", .array [.string "no", .string "12", .string ""]),
        ("404", .emptyObject)]
      requestBody := Dict.empty.insert "application/json" ⟨"object", "bell \u0007"⟩ })
  components := .object [("limit", .number (.whole ⟨0xFFFFFFFFFFFFFFFF, by decide, by decide⟩)),
    ("limits\n", .object [("- a", .array [.array [.null, .bool true], .array []])])]

end RouteDocs
