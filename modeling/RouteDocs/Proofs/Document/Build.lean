import Mathlib.Data.Finset.Card
import RouteDocs.Document.Json
import RouteDocs.Document.Yaml
import RouteDocs.Proofs.Generate

/-!
# Building a document step by step

A document is built in steps that add a route or set the components, in any order. What comes out
depends only on the last route of each slot and on the last components: the order of all other steps
leaves no trace, neither in the document nor in a text that is written from it.

## Main definitions

* `BuildStep`, `Document.build`: the steps, and the document after them.
* `BuildStep.lastRoute?`, `BuildStep.lastComponents?`: what is left of the steps.
* `Document.slots`: the URL templates of a document with their verbs.
* `Document.Holds`: the document has what is left of the steps, and nothing else.

## Main statement

* `Document.build_holds`: what a document holds after any steps, and that this determines it.
-/

namespace RouteDocs

/-- A step of building a document. -/
inductive BuildStep where
  | addRoute (r : Route)
  | setComponents (c : Json)

namespace BuildStep

/-- The document after a step. -/
def apply (d : Document) : BuildStep → Document
  | .addRoute r => d.addRoute r
  | .setComponents c => d.setComponents c

/-- The route that a step adds. -/
def route? : BuildStep → Option Route
  | .addRoute r => some r
  | .setComponents _ => none

/-- The components that a step sets. -/
def components? : BuildStep → Option Json
  | .addRoute _ => none
  | .setComponents c => some c

/-- The last route that the steps add under a URL template and verb. -/
def lastRoute? (steps : List BuildStep) (template verb : String) : Option Route :=
  Document.lastRoute? (steps.filterMap route?) template verb

/-- The last components that the steps set. -/
def lastComponents? (steps : List BuildStep) : Option Json :=
  (steps.filterMap components?).getLast?

end BuildStep

namespace Document

/-- The document after a list of steps. -/
def build (settings : Settings) (steps : List BuildStep) : Document :=
  steps.foldl BuildStep.apply (initial settings)

/-! ## Routes and components do not meet -/

theorem withRoutes_setComponents (d : Document) (c : Json) (rs : List Route) :
    (d.setComponents c).withRoutes rs = (d.withRoutes rs).setComponents c := by
  induction rs generalizing d with
  | nil => rfl
  | cons r rs ih => exact ih (d.addRoute r)

/-- The routes may as well be added first, and then the last components be set. -/
theorem foldl_apply (d : Document) (steps : List BuildStep) :
    steps.foldl BuildStep.apply d =
      (d.withRoutes (steps.filterMap BuildStep.route?)).setComponents
        ((BuildStep.lastComponents? steps).getD d.components) := by
  induction steps generalizing d with
  | nil => rfl
  | cons step steps ih =>
    rw [List.foldl_cons, ih]
    cases step with
    | addRoute r => rfl
    | setComponents c =>
      simp only [BuildStep.apply, BuildStep.lastComponents?, BuildStep.components?,
        BuildStep.route?, List.filterMap_cons, List.getLast?_cons, withRoutes_setComponents]
      rfl

theorem build_eq (settings : Settings) (steps : List BuildStep) :
    build settings steps =
      ((initial settings).withRoutes (steps.filterMap BuildStep.route?)).setComponents
        ((BuildStep.lastComponents? steps).getD .emptyObject) :=
  foldl_apply (initial settings) steps

/-! ## Path items -/

/-- Every path item of the document has an operation. -/
def NoEmptyItem (d : Document) : Prop := ∀ item ∈ d.paths.toList, 0 < item.2.size

theorem noEmptyItem_addRoute {d : Document} (h : d.NoEmptyItem) (r : Route) :
    (d.addRoute r).NoEmptyItem := by
  apply Dict.forall_mem_insert (p := fun item : PathItem => 0 < item.size) _ _ h
  exact Dict.size_insert_pos _ _ _

theorem noEmptyItem_withRoutes {d : Document} (h : d.NoEmptyItem) (rs : List Route) :
    (d.withRoutes rs).NoEmptyItem := by
  induction rs generalizing d with
  | nil => exact h
  | cons r rs ih => exact ih (noEmptyItem_addRoute h r)

/-- Without empty path items, a URL template is missing exactly if all its slots are. -/
theorem get?_eq_none_iff {d : Document} (h : d.NoEmptyItem) {t : String} :
    d.paths.get? t = none ↔ ∀ v, d.operation? t v = none := by
  constructor
  · intro hnone v
    rw [operation?, hnone]
    rfl
  · intro hslots
    cases hitem : d.paths.get? t with
    | none => rfl
    | some item =>
      obtain ⟨⟨v, o⟩, hmem⟩ :=
        List.exists_mem_of_length_pos (h (t, item) (Dict.mem_toList_iff.2 hitem))
      have hslot := hslots v
      rw [operation?, hitem, Option.bind_some, Dict.mem_toList_iff.1 hmem] at hslot
      cases hslot

/-- Without empty path items, the paths are determined by the slots. -/
theorem paths_eq_of_operation?_eq {d e : Document} (hd : d.NoEmptyItem) (he : e.NoEmptyItem)
    (h : ∀ t v, d.operation? t v = e.operation? t v) : d.paths = e.paths :=
  paths_ext (fun t => by simp only [get?_eq_none_iff hd, get?_eq_none_iff he, h]) h

/-! ## Slots -/

/-- The filled slots of a document: its URL templates, each with its verbs. -/
def slots (d : Document) : List (String × String) :=
  d.paths.toList.flatMap fun (t, item) => item.toList.map fun (v, _) => (t, v)

theorem mem_slots {d : Document} {t v : String} :
    (t, v) ∈ d.slots ↔ (d.operation? t v).isSome := by
  simp only [slots, List.mem_flatMap, List.mem_map, Prod.mk.injEq, Prod.exists, operation?,
    Option.isSome_iff_exists, Option.bind_eq_some_iff, ← Dict.mem_toList_iff]
  grind

theorem nodup_slots (d : Document) : d.slots.Nodup := by
  refine List.pairwise_flatMap.2 ⟨fun item _ => ?_, d.paths.pairwise_fst_ne.imp ?_⟩
  · exact List.pairwise_map.2 (item.2.pairwise_fst_ne.imp fun hne heq =>
      hne (congrArg Prod.snd heq))
  · rintro ⟨t, item⟩ ⟨t', item'⟩ hne x hx y hy rfl
    obtain ⟨e, -, rfl⟩ := List.mem_map.1 hx
    obtain ⟨e', -, heq⟩ := List.mem_map.1 hy
    exact hne (congrArg Prod.fst heq).symm

/-- Every operation has its slot. -/
theorem operationCount_eq_length_slots (d : Document) : d.operationCount = d.slots.length := by
  have hcount : ∀ (items : List (String × PathItem)) (n : Nat),
      items.foldl (fun n (_, item) => n + item.size) n =
        n + (items.flatMap fun (t, item) => item.toList.map fun (v, _) => (t, v)).length := by
    intro items
    induction items with
    | nil => exact fun _ => rfl
    | cons item items ih =>
      intro n
      rw [List.foldl_cons, ih, List.flatMap_cons, List.length_append, List.length_map]
      exact Nat.add_assoc _ _ _
  rw [operationCount, hcount, Nat.zero_add]
  rfl

/-! ## The document after any steps -/

/-- The URL template and the verb of a route. -/
def slotOf (r : Route) : String × String := (r.signature.urlTemplate, r.signature.verb)

/-- The document has the head of the settings, the last components of the steps, in every slot the
operation of its last route, and nothing else. -/
structure Holds (settings : Settings) (steps : List BuildStep) (d : Document) : Prop where
  openapi : d.openapi = settings.openapiVersion
  info : d.info = ⟨settings.title, settings.description⟩
  components : d.components = (BuildStep.lastComponents? steps).getD .emptyObject
  operation : ∀ t v, d.operation? t v = (BuildStep.lastRoute? steps t v).map Route.operation
  noEmptyItem : d.NoEmptyItem
  /-- There are as many operations as URL templates with a verb have been added. -/
  operationCount : d.operationCount =
    ((steps.filterMap BuildStep.route?).map slotOf).toFinset.card

theorem holds_build (settings : Settings) (steps : List BuildStep) :
    Holds settings steps (build settings steps) where
  openapi := by
    rw [build_eq]
    exact openapi_withRoutes _ _
  info := by
    rw [build_eq]
    exact info_withRoutes _ _
  components := by
    rw [build_eq]
    rfl
  operation t v := by
    rw [build_eq, operation?_setComponents, operation?_withRoutes, operation?_initial,
      Option.or_none]
    rfl
  noEmptyItem := by
    rw [build_eq]
    have hinitial : (initial settings).NoEmptyItem := fun _ h => nomatch h
    exact noEmptyItem_withRoutes hinitial _
  operationCount := by
    rw [operationCount_eq_length_slots, ← List.toFinset_card_of_nodup (nodup_slots _)]
    congr 1
    ext ⟨t, v⟩
    rw [List.mem_toFinset, List.mem_toFinset, mem_slots, build_eq, operation?_setComponents,
      isSome_operation?_withRoutes]
    simp [slotOf]

/-- What the steps leave determines the document. -/
theorem Holds.unique {settings : Settings} {steps steps' : List BuildStep} {d e : Document}
    (hd : d.Holds settings steps) (he : e.Holds settings steps')
    (hroute : ∀ t v, BuildStep.lastRoute? steps t v = BuildStep.lastRoute? steps' t v)
    (hcomponents : BuildStep.lastComponents? steps = BuildStep.lastComponents? steps') : d = e := by
  have hpaths : d.paths = e.paths := paths_eq_of_operation?_eq hd.noEmptyItem he.noEmptyItem
    fun t v => by rw [hd.operation, he.operation, hroute]
  have hopenapi := hd.openapi.trans he.openapi.symm
  have hinfo := hd.info.trans he.info.symm
  have hlast : d.components = e.components := by
    rw [hd.components, he.components, hcomponents]
  cases d
  cases e
  cases hpaths
  cases hopenapi
  cases hinfo
  cases hlast
  rfl

/-- After any steps, a document holds the last route of each slot and the last components. Steps
that leave the same, in whatever order they come, build the same document: it is written as the same
text in both formats, and as many paths and operations are counted. -/
theorem build_holds (settings : Settings) (steps : List BuildStep) :
    (build settings steps).Holds settings steps ∧
      ∀ steps',
        (∀ t v, BuildStep.lastRoute? steps' t v = BuildStep.lastRoute? steps t v) →
        BuildStep.lastComponents? steps' = BuildStep.lastComponents? steps →
        build settings steps' = build settings steps ∧
        (build settings steps').printJson = (build settings steps).printJson ∧
        (build settings steps').printYaml? = (build settings steps).printYaml? ∧
        (build settings steps').paths.size = (build settings steps).paths.size ∧
        (build settings steps').operationCount = (build settings steps).operationCount := by
  refine ⟨holds_build settings steps, fun steps' hroute hcomponents => ?_⟩
  have hsame : build settings steps' = build settings steps :=
    (holds_build settings steps').unique (holds_build settings steps) hroute hcomponents
  rw [hsame]
  exact ⟨rfl, rfl, rfl, rfl, rfl⟩

/-- A route without parameters. -/
def plainRoute (verb description : String) : Route :=
  ⟨⟨verb, "/users", [], []⟩, { description := description }⟩

/-- A route is replaced and the components are set in between, or they are set twice at the end. -/
theorem build_holds_reordered :
    build {} [.addRoute (plainRoute "get" "Old"), .setComponents .emptyObject,
        .addRoute (plainRoute "post" "Add"), .addRoute (plainRoute "get" "All")] =
      build {} [.addRoute (plainRoute "get" "All"), .addRoute (plainRoute "post" "Add"),
        .setComponents .null, .setComponents .emptyObject] := by
  refine ((build_holds {} _).2 _ (fun t v => ?_) rfl).1
  simp only [BuildStep.lastRoute?, BuildStep.route?, List.filterMap_cons, List.filterMap_nil,
    lastRoute?_cons, plainRoute]

end Document

end RouteDocs
