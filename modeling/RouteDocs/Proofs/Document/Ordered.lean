import RouteDocs.Document.Json
import RouteDocs.Document.Yaml
import RouteDocs.Generate
import RouteDocs.Proofs.Gives
import RouteDocs.Proofs.Document.Decode

/-!
# Documents are ordered

The JSON values in a document come from YAML or from JSON text, and all their objects are put
together from dictionaries. So nobody has to ask for the order of a document that is built or read.

## Main definitions

* `DataView.GivesOrdered`: a format shows ordered JSON values only.

## Main statements

* `Document.isOrdered_of_generate`: the document of a source text is ordered.
* `Document.isOrdered_of_readJson?`, `Document.isOrdered_of_readYaml?`: so are documents that are
  read.
-/

namespace RouteDocs

open Yaml Json

/-! ## JSON values of YAML values -/

namespace Yaml.Value

theorem isOrdered_numberJson (n : Number) : (numberJson n).IsOrdered := by
  cases n with
  | whole n => trivial
  | float x =>
    rw [numberJson]
    split <;> trivial

mutual

/-- A YAML value gives an ordered JSON value. -/
theorem isOrdered_toJson : (v : Value) → v.toJson.IsOrdered
  | .null | .bool _ | .string _ => trivial
  | .number n => isOrdered_numberJson n
  | .sequence items => isOrdered_array_iff.2 (isOrdered_itemsToJson items)
  | .mapping es => isOrdered_ofMembers (isOrdered_entriesToJson es)
  | .tagged _ v => isOrdered_toJson v

theorem isOrdered_itemsToJson : (items : List Value) → ∀ x ∈ itemsToJson items, x.IsOrdered
  | [] => fun _ h => nomatch h
  | v :: items => List.forall_mem_cons.2 ⟨isOrdered_toJson v, isOrdered_itemsToJson items⟩

theorem isOrdered_entriesToJson :
    (es : List (Value × Value)) → ∀ m ∈ entriesToJson es, m.2.IsOrdered
  | [] => fun _ h => nomatch h
  | (_, v) :: es => List.forall_mem_cons.2 ⟨isOrdered_toJson v, isOrdered_entriesToJson es⟩

end

end Yaml.Value

/-! ## The document of a source text -/

theorem Components.isOrdered_ofEntries (es : Entries) : (Components.ofEntries es).IsOrdered := by
  unfold Components.ofEntries
  split
  · exact isOrdered_emptyObject
  · split
    · exact isOrdered_emptyObject
    · exact Value.isOrdered_toJson _

theorem Components.isOrdered_parse (source : String) :
    (Components.parse source).result.IsOrdered := by
  unfold Components.parse
  split
  · exact isOrdered_emptyObject
  · rename_i text _
    cases hread : (Region.components.read text).result with
    | none => simpa [hread] using isOrdered_emptyObject
    | some es => simpa [hread] using Components.isOrdered_ofEntries es

namespace Annotation

theorem isOrdered_responseOf (content : Value) :
    (responseOf content).IsOrdered := by
  unfold responseOf
  split
  · exact isOrdered_emptyObject
  · exact Value.isOrdered_toJson content

theorem isOrdered_responsesOf (es : Entries) :
    ∀ e ∈ (responsesOf es).result.toList, e.2.IsOrdered := by
  unfold responsesOf
  split
  · rename_i codes _
    apply Dict.forall_mem_ofList
    intro e he
    obtain ⟨c, -, rfl⟩ := List.mem_map.1 he
    exact isOrdered_responseOf c.2
  -- without a mapping there are no responses
  all_goals exact fun _ h => nomatch h

theorem isOrdered_parse (settings : Settings) (comment : String) :
    ∀ e ∈ (parse settings comment).result.responses.toList, e.2.IsOrdered := by
  unfold parse
  split
  · exact fun _ h => nomatch h
  · exact isOrdered_responsesOf _

end Annotation

namespace Document.IsOrdered

theorem initial (settings : Settings) : (Document.initial settings).IsOrdered where
  operations _ h := nomatch h
  components := isOrdered_emptyObject

/-- A route with ordered responses leaves a document ordered. -/
theorem addRoute {d : Document} {r : Route} (h : d.IsOrdered) (hr : r.operation.IsOrdered) :
    (d.addRoute r).IsOrdered where
  operations := by
    apply Dict.forall_mem_modify (p := fun item : PathItem => ∀ o ∈ item.toList, o.2.IsOrdered)
    · exact h.operations
    · exact fun _ ho => nomatch ho
    · exact fun item hitem => Dict.forall_mem_insert _ hr hitem
  components := h.components

theorem setComponents {d : Document} {c : Json} (h : d.IsOrdered) (hc : c.IsOrdered) :
    (d.setComponents c).IsOrdered :=
  ⟨h.operations, hc⟩

/-- Routes with ordered responses leave a document ordered, as far as they are added. -/
theorem addRoutes {d : Document} {rs : List (Except Signature.Malformed (Logged Route))}
    (h : d.IsOrdered) (hrs : ∀ r, .ok r ∈ rs → r.result.operation.IsOrdered) {e : Document}
    (he : (d.addRoutes rs).result = .ok e) : e.IsOrdered := by
  induction rs generalizing d with
  | nil =>
    cases he
    exact h
  | cons r rs ih =>
    cases r with
    | error _ => cases he
    | ok r =>
      have hstep := h.addRoute (hrs r List.mem_cons_self)
      exact ih hstep (fun q hq => hrs q (List.mem_cons_of_mem _ hq)) he

end Document.IsOrdered

theorem Route.isOrdered_ofBlock {settings : Settings} {b : Source.Block} {r : Logged Route}
    (h : Route.ofBlock settings b = .ok r) : r.result.operation.IsOrdered := by
  unfold Route.ofBlock at h
  split at h
  · cases h
  · cases h
    exact Annotation.isOrdered_parse settings b.comment

/-- The document of a source text is ordered. -/
theorem Document.isOrdered_of_generate {settings : Settings} {source : String} {d : Document}
    (h : (generate settings source).result = .ok d) : d.IsOrdered := by
  have hroutes : ∀ r, .ok r ∈ routes settings source → r.result.operation.IsOrdered := by
    intro r hr
    obtain ⟨b, -, hb⟩ := List.mem_map.1 hr
    exact Route.isOrdered_ofBlock hb
  unfold generate at h
  split at h
  · cases h
  · rename_i e log hadd
    cases h
    have he : ((Document.initial settings).addRoutes (routes settings source)).result = .ok e := by
      rw [hadd]
    have hordered := (Document.IsOrdered.initial settings).addRoutes hroutes he
    exact hordered.setComponents (Components.isOrdered_parse source)

/-! ## Documents that are read -/

section

variable {m : Type → Type} [Monad m] [LawfulMonad m] {α β : Type}

/-- The format shows ordered JSON values only. -/
structure DataView.GivesOrdered (v : DataView m α) : Prop where
  refuse : ∀ {γ : Type} (p : γ → Prop), Gives p v.refuse
  json : ∀ x, Gives Json.IsOrdered (v.json x)

variable {v : DataView m α}

theorem DataView.gives_dict {p : β → Prop} {decode : α → m β} (hdecode : ∀ x, Gives p (decode x))
    (x : α) : Gives (fun d => ∀ e ∈ d.toList, p e.2) (v.dict decode x) := by
  unfold DataView.dict
  apply Gives.bind_of_forall
  intro es
  have hentry : ∀ e : String × α,
      Gives (fun b : String × β => p b.2) (do return (e.1, ← decode e.2)) := by
    intro e
    exact (hdecode e.2).bind fun b hb => .pure hb
  exact (Gives.mapM es hentry).bind fun bs hbs => .pure (Dict.forall_mem_ofList hbs)

theorem Operation.gives_decode (h : v.GivesOrdered) (x : α) :
    Gives Operation.IsOrdered (Operation.decode v x) := by
  unfold Operation.decode
  apply Gives.bind_of_forall
  intro fields
  split
  · apply Gives.bind_of_forall
    intro description
    apply Gives.bind_of_forall
    intro items
    apply Gives.bind_of_forall
    intro parameters
    apply (DataView.gives_dict h.json _).bind
    intro responses hresponses
    apply Gives.bind_of_forall
    intro content
    apply Gives.bind_of_forall
    intro requestBody
    exact .pure hresponses
  · exact h.refuse _

/-- A document is decoded in order if the format shows ordered values only. -/
theorem Document.gives_decode (h : v.GivesOrdered) (x : α) :
    Gives Document.IsOrdered (Document.decode v x) := by
  unfold Document.decode
  apply Gives.bind_of_forall
  intro fields
  split
  · apply Gives.bind_of_forall
    intro openapi
    apply Gives.bind_of_forall
    intro info
    have hitem : ∀ y, Gives (fun item : PathItem => ∀ o ∈ item.toList, o.2.IsOrdered)
        (v.dict (Operation.decode v) y) :=
      DataView.gives_dict (Operation.gives_decode h)
    apply (DataView.gives_dict hitem _).bind
    intro paths hpaths
    exact (h.json _).bind fun components hcomponents => .pure ⟨hpaths, hcomponents⟩
  · exact h.refuse _

end

namespace RawJson

mutual

theorem isOrdered_value :
    (depth : Nat) → (j : RawJson) → ∀ x, value depth j = some x → x.IsOrdered
  | _, .null | _, .bool _ => by
    rintro x ⟨⟩
    trivial
  | _, .number n => by
    intro x h
    obtain ⟨y, -, rfl⟩ := Option.map_eq_some_iff.1 h
    trivial
  | _, .string s => by
    intro x h
    obtain ⟨y, -, rfl⟩ := Option.map_eq_some_iff.1 h
    trivial
  | depth, .array items => by
    intro x h
    rw [value] at h
    split at h
    · cases h
    · obtain ⟨xs, hxs, rfl⟩ := Option.map_eq_some_iff.1 h
      exact isOrdered_array_iff.2 (isOrdered_itemValues _ items xs hxs)
  | depth, .object members => by
    intro x h
    rw [value] at h
    split at h
    · cases h
    · obtain ⟨xs, hxs, rfl⟩ := Option.map_eq_some_iff.1 h
      exact isOrdered_ofMembers (isOrdered_memberValues _ members xs hxs)

theorem isOrdered_itemValues :
    (depth : Nat) → (items : List RawJson) → ∀ xs, itemValues depth items = some xs → ∀ x ∈ xs, x.IsOrdered
  | _, [] => by
    rintro xs ⟨⟩
    exact fun _ h => nomatch h
  | depth, j :: items => by
    intro xs h
    simp only [itemValues, Option.bind_eq_bind, Option.bind_eq_some_iff, Option.pure_def,
      Option.some.injEq] at h
    obtain ⟨y, hy, ys, hys, rfl⟩ := h
    have hitem := isOrdered_value depth j y hy
    exact List.forall_mem_cons.2 ⟨hitem, isOrdered_itemValues depth items ys hys⟩

theorem isOrdered_memberValues :
    (depth : Nat) → (members : List (RawString × RawJson)) →
      ∀ xs, memberValues depth members = some xs → ∀ x ∈ xs, x.2.IsOrdered
  | _, [] => by
    rintro xs ⟨⟩
    exact fun _ h => nomatch h
  | depth, (_, j) :: members => by
    intro xs h
    simp only [memberValues, Option.bind_eq_bind, Option.bind_eq_some_iff, Option.pure_def,
      Option.some.injEq] at h
    obtain ⟨_, -, y, hy, ys, hys, rfl⟩ := h
    have hmember := isOrdered_value depth j y hy
    exact List.forall_mem_cons.2 ⟨hmember, isOrdered_memberValues depth members ys hys⟩

end

theorem givesOrdered_view : view.GivesOrdered where
  refuse _ := ⟨none, rfl⟩
  json x := gives_option_iff.2 (isOrdered_value x.depth x.text)

end RawJson

/-- A document that is read from JSON is ordered. -/
theorem Document.isOrdered_of_readJson? {text : String} {d : Document}
    (h : Document.readJson? text = some d) : d.IsOrdered := by
  obtain ⟨j, -, hd⟩ := Option.bind_eq_some_iff.1 h
  exact gives_option_iff.1 (Document.gives_decode RawJson.givesOrdered_view _) d hd

namespace Yaml

theorem Scalar.gives_json? (s : Scalar) : Gives Json.IsOrdered s.json? := by
  apply gives_option_iff.2
  intro x h
  rw [Scalar.json?] at h
  split at h
  · cases h
  · obtain ⟨v, -, rfl⟩ := Option.map_eq_some_iff.1 h
    exact Value.isOrdered_toJson v

theorem Tree.gives_json (t : Tree) (depth : Nat) (n : Node Nat) :
    Gives Json.IsOrdered (t.json depth n) := by
  have hfail : Gives Json.IsOrdered (failure : Reading Json) := ⟨failure, rfl⟩
  induction depth generalizing n with
  | zero =>
    unfold Tree.json
    apply Gives.bind_of_forall
    intro n
    split
    · exact .lift (Scalar.gives_json? _)
    · exact hfail
  | succ depth ih =>
    unfold Tree.json
    apply Gives.bind_of_forall
    intro n
    split
    · exact .lift (Scalar.gives_json? _)
    · exact hfail
    · split
      · exact hfail
      · exact (Gives.mapM _ ih).bind fun xs hxs => .pure (isOrdered_array_iff.2 hxs)
    · split
      · exact hfail
      · have hentry : ∀ e : Node Nat × Node Nat, Gives (fun m : String × Json => m.2.IsOrdered)
            (do return (← t.string e.1, ← t.json depth e.2)) := by
          intro e
          exact .bind_of_forall _ fun k => (ih e.2).bind fun x hx => .pure hx
        exact (Gives.mapM _ hentry).bind fun ms hms => .pure (isOrdered_ofMembers hms)

theorem Tree.givesOrdered_view (t : Tree) : t.view.GivesOrdered where
  refuse _ := ⟨failure, rfl⟩
  json x := t.gives_json x.depth x.node

end Yaml

/-- A document that is read from YAML is ordered. -/
theorem Document.isOrdered_of_readYaml? {text : String} {d : Document}
    (h : Document.readYaml? text = some d) : d.IsOrdered := by
  obtain ⟨t, -, hd⟩ := Option.bind_eq_some_iff.1 h
  have hdecode := Document.gives_decode (Tree.givesOrdered_view t)
    ⟨Tree.depthLimit, t.root.getD .nothing⟩
  exact gives_option_iff.1 (hdecode.run' t.aliasLimit) d hd

end RouteDocs
