import RouteDocs.Generate
import RouteDocs.Proofs.Dict

/-!
# What the document of a source text holds

The routes of a source text are added one after the other, so the operation in a slot is that of the
last block with this URL template and verb. The first malformed declaration ends the run; what was
reported in front of it stays reported.

## Main definitions

* `Document.operation?`: the operation under a URL template and verb.
* `Source.Block.signature?`, `Source.Block.operation`, `Source.Block.log`: what a single block gives.
* `Source.LastAt`: the last block of a slot.
* `Assembled`: the document that a list of blocks makes up.

## Main statement

* `generate_assembles`: `generate` fails with the first malformed declaration, and gives the
  assembled document if there is none.
-/

namespace RouteDocs

open Source

/-! ## Adding a route -/

namespace Document

/-- The operation under a URL template and verb. -/
def operation? (d : Document) (template verb : String) : Option Operation :=
  (d.paths.get? template).bind (·.get? verb)

@[simp] theorem operation?_initial (settings : Settings) (t v : String) :
    (initial settings).operation? t v = none := rfl

@[simp] theorem openapi_addRoute (d : Document) (r : Route) :
    (d.addRoute r).openapi = d.openapi := rfl

@[simp] theorem info_addRoute (d : Document) (r : Route) : (d.addRoute r).info = d.info := rfl

@[simp] theorem operation?_setComponents (d : Document) (c : Json) (t v : String) :
    (d.setComponents c).operation? t v = d.operation? t v := rfl

/-- A route fills its slot and leaves all others as they are. -/
theorem operation?_addRoute (d : Document) (r : Route) (t v : String) :
    (d.addRoute r).operation? t v =
      if r.signature.urlTemplate = t ∧ r.signature.verb = v then some r.operation
      else d.operation? t v := by
  simp only [operation?, addRoute, Dict.get?_modify]
  by_cases ht : r.signature.urlTemplate = t
  · subst ht
    by_cases hv : r.signature.verb = v
    · simp [hv]
    · -- the path item is there already, or it starts empty
      cases hd : d.paths.get? r.signature.urlTemplate with
      | none =>
        have hempty : (default : PathItem).get? v = none := rfl
        simp [hv, Dict.get?_insert, hempty]
      | some item => simp [hv, Dict.get?_insert]
  · simp [ht]

/-- A URL template is there if a route has it or it was there before. -/
theorem isSome_get?_addRoute (d : Document) (r : Route) (t : String) :
    ((d.addRoute r).paths.get? t).isSome ↔
      r.signature.urlTemplate = t ∨ (d.paths.get? t).isSome := by
  simp only [addRoute, Dict.get?_modify]
  by_cases ht : r.signature.urlTemplate = t <;> simp [ht]

/-! ## Adding routes -/

/-- The last route of a list under a URL template and verb. -/
def lastRoute? (rs : List Route) (template verb : String) : Option Route :=
  (rs.filter fun r => r.signature.urlTemplate = template ∧ r.signature.verb = verb).getLast?

theorem lastRoute?_cons (r : Route) (rs : List Route) (t v : String) :
    lastRoute? (r :: rs) t v = (lastRoute? rs t v).or
      (if r.signature.urlTemplate = t ∧ r.signature.verb = v then some r else none) := by
  rw [lastRoute?, lastRoute?, List.filter_cons]
  by_cases h : r.signature.urlTemplate = t ∧ r.signature.verb = v
  · rw [if_pos h, if_pos (decide_eq_true h), List.getLast?_cons]
    cases (rs.filter _).getLast? <;> rfl
  · rw [if_neg h, if_neg (by simpa using h), Option.or_none]

theorem isSome_lastRoute?_iff {rs : List Route} {t v : String} :
    (lastRoute? rs t v).isSome ↔
      ∃ r ∈ rs, r.signature.urlTemplate = t ∧ r.signature.verb = v := by
  simp [lastRoute?]

/-- A document with all routes of a list. -/
def withRoutes (d : Document) (rs : List Route) : Document := rs.foldl addRoute d

@[simp] theorem withRoutes_append (d : Document) (rs qs : List Route) :
    d.withRoutes (rs ++ qs) = (d.withRoutes rs).withRoutes qs :=
  List.foldl_append

/-- Routes in front of a list are added, and what they report comes first. -/
theorem addRoutes_append (d : Document) (rs : List (Logged Route))
    (rest : List (Except Signature.Malformed (Logged Route))) :
    d.addRoutes (rs.map .ok ++ rest) =
      { result := ((d.withRoutes (rs.map (·.result))).addRoutes rest).result
        log := rs.flatMap (·.log) ++ ((d.withRoutes (rs.map (·.result))).addRoutes rest).log } := by
  induction rs generalizing d with
  | nil => rfl
  | cons r rs ih =>
    simp only [List.map_cons, List.cons_append, addRoutes, ih]
    simp [withRoutes]

theorem openapi_withRoutes (d : Document) (rs : List Route) :
    (d.withRoutes rs).openapi = d.openapi := by
  induction rs generalizing d with
  | nil => rfl
  | cons r rs ih => exact ih (d.addRoute r)

theorem info_withRoutes (d : Document) (rs : List Route) : (d.withRoutes rs).info = d.info := by
  induction rs generalizing d with
  | nil => rfl
  | cons r rs ih => exact ih (d.addRoute r)

theorem isSome_get?_withRoutes (d : Document) (rs : List Route) (t : String) :
    ((d.withRoutes rs).paths.get? t).isSome ↔
      (∃ r ∈ rs, r.signature.urlTemplate = t) ∨ (d.paths.get? t).isSome := by
  induction rs generalizing d with
  | nil => simp [withRoutes]
  | cons r rs ih =>
    have hstep : d.withRoutes (r :: rs) = (d.addRoute r).withRoutes rs := rfl
    rw [hstep, ih, isSome_get?_addRoute]
    grind

/-- A slot holds the operation of its last route, or what it held before. -/
theorem operation?_withRoutes (d : Document) (rs : List Route) (t v : String) :
    (d.withRoutes rs).operation? t v =
      ((lastRoute? rs t v).map Route.operation).or (d.operation? t v) := by
  induction rs generalizing d with
  | nil => rfl
  | cons r rs ih =>
    have hstep : d.withRoutes (r :: rs) = (d.addRoute r).withRoutes rs := rfl
    rw [hstep, ih, operation?_addRoute, lastRoute?_cons]
    cases lastRoute? rs t v with
    | some q => rfl
    | none => split <;> rfl

/-- A slot is filled if a route has it or it was filled before. -/
theorem isSome_operation?_withRoutes (d : Document) (rs : List Route) (t v : String) :
    ((d.withRoutes rs).operation? t v).isSome ↔
      (∃ r ∈ rs, r.signature.urlTemplate = t ∧ r.signature.verb = v) ∨
        (d.operation? t v).isSome := by
  rw [operation?_withRoutes, Option.isSome_or, Option.isSome_map, Bool.or_eq_true,
    isSome_lastRoute?_iff]

/-- Routes of other slots leave a slot as it is. -/
theorem operation?_withRoutes_of_forall (d : Document) {rs : List Route} {t v : String}
    (h : ∀ r ∈ rs, ¬(r.signature.urlTemplate = t ∧ r.signature.verb = v)) :
    (d.withRoutes rs).operation? t v = d.operation? t v := by
  have hnone : lastRoute? rs t v = none := by
    rw [← Option.not_isSome_iff_eq_none, isSome_lastRoute?_iff]
    rintro ⟨r, hr, hslot⟩
    exact h r hr hslot
  rw [operation?_withRoutes, hnone]
  rfl

/-- Paths with the same URL templates and the same slots are equal. -/
theorem paths_ext {d e : Document} (ht : ∀ t, d.paths.get? t = none ↔ e.paths.get? t = none)
    (h : ∀ t v, d.operation? t v = e.operation? t v) : d.paths = e.paths := by
  apply Dict.ext_get?
  intro t
  cases hitem : d.paths.get? t with
  | none => exact ((ht t).1 hitem).symm
  | some item =>
    cases hother : e.paths.get? t with
    | none => exact hitem.symm.trans ((ht t).2 hother)
    | some item' =>
      have hlookup : ∀ v, item.get? v = item'.get? v := fun v => by
        simpa [operation?, hitem, hother] using h t v
      exact congrArg some (Dict.ext_get? hlookup)

end Document

/-! ## What a block gives -/

namespace Source

/-- The signature of a block whose declaration is well formed. -/
def Block.signature? (b : Block) : Option Signature :=
  match Signature.parse b.declaration with
  | .ok s => some s.result
  | .error _ => none

/-- What a block reports: first its declaration, then its comment. One with a malformed declaration
reports nothing. -/
def Block.log (settings : Settings) (b : Block) : List Warning :=
  match Signature.parse b.declaration with
  | .ok s =>
    let a := Annotation.parse settings b.comment
    s.log ++ a.log
  | .error _ => []

/-- The operation of a block with a given signature. -/
def Block.operation (settings : Settings) (b : Block) (s : Signature) : Operation :=
  let a := Annotation.parse settings b.comment
  { description := a.result.description
    parameters := s.parameters.map fun p =>
      { name := p.name, location := "path", required := true, type := p.type }
    responses := a.result.responses
    requestBody := a.result.requestBody }

/-- A block with signature `s` is the last one of its slot. -/
def LastAt (bs : List Block) (b : Block) (s : Signature) : Prop :=
  ∃ before after, bs = before ++ b :: after ∧ b.signature? = some s ∧
    ∀ c ∈ after, ∀ q, c.signature? = some q → ¬(q.urlTemplate = s.urlTemplate ∧ q.verb = s.verb)

end Source

/-- The document that the blocks of a source text make up, apart from its components. -/
structure Assembled (settings : Settings) (bs : List Block) (d : Document) : Prop where
  openapi : d.openapi = settings.openapiVersion
  info : d.info = ⟨settings.title, settings.description⟩
  /-- A URL template is there if a block has it. -/
  template : ∀ t, (d.paths.get? t).isSome ↔ ∃ b ∈ bs, ∃ s, b.signature? = some s ∧ s.urlTemplate = t
  /-- A slot is filled if a block has its URL template and verb. -/
  slot : ∀ t v, (d.operation? t v).isSome ↔
    ∃ b ∈ bs, ∃ s, b.signature? = some s ∧ s.urlTemplate = t ∧ s.verb = v
  /-- It is filled with the operation of the last such block. -/
  last : ∀ b s, LastAt bs b s → d.operation? s.urlTemplate s.verb = some (b.operation settings s)

/-- The route of a block with a given signature. -/
def Source.Block.route (settings : Settings) (b : Block) (s : Signature) : Route :=
  let a := Annotation.parse settings b.comment
  ⟨s, a.result⟩

theorem operation_route (settings : Settings) (b : Block) (s : Signature) :
    (b.route settings s).operation = b.operation settings s := rfl

/-- Reading a block with a well-formed declaration succeeds with its route and its log. -/
theorem ofBlock_of_ok {settings : Settings} {b : Block} {s : Logged Signature}
    (h : Signature.parse b.declaration = .ok s) :
    Route.ofBlock settings b = .ok ⟨b.route settings s.result, b.log settings⟩ := by
  simp [Route.ofBlock, Block.log, Block.route, h]

theorem ofBlock_of_error {settings : Settings} {b : Block} {e : Signature.Malformed}
    (h : Signature.parse b.declaration = .error e) : Route.ofBlock settings b = .error e := by
  simp [Route.ofBlock, h]

theorem signature?_of_ok {b : Block} {s : Logged Signature}
    (h : Signature.parse b.declaration = .ok s) : b.signature? = some s.result := by
  simp [Block.signature?, h]

/-! ## The routes of a list of blocks -/

/-- The routes of blocks; those with a malformed declaration are left out. -/
def routesOf (settings : Settings) (bs : List Block) : List Route :=
  bs.filterMap fun b => b.signature?.map (b.route settings)

theorem mem_routesOf {settings : Settings} {bs : List Block} {r : Route} :
    r ∈ routesOf settings bs ↔
      ∃ b ∈ bs, ∃ s, b.signature? = some s ∧ b.route settings s = r := by
  simp [routesOf]

theorem routesOf_append (settings : Settings) (bs cs : List Block) :
    routesOf settings (bs ++ cs) = routesOf settings bs ++ routesOf settings cs :=
  List.filterMap_append

theorem routesOf_append_cons {settings : Settings} {b : Block} {s : Signature}
    (before after : List Block) (h : b.signature? = some s) :
    routesOf settings (before ++ b :: after) =
      routesOf settings before ++ b.route settings s :: routesOf settings after := by
  simp [routesOf, h]

/-- If all declarations are well formed, then all blocks are read, each with its log. -/
theorem exists_map_ofBlock (settings : Settings) {bs : List Block}
    (h : ∀ b ∈ bs, ∃ s, Signature.parse b.declaration = .ok s) :
    ∃ rs : List (Logged Route), bs.map (Route.ofBlock settings) = rs.map .ok ∧
      rs.map (·.result) = routesOf settings bs ∧
      rs.flatMap (·.log) = bs.flatMap (Block.log settings) := by
  induction bs with
  | nil => exact ⟨[], rfl, rfl, rfl⟩
  | cons b bs ih =>
    obtain ⟨s, hs⟩ := h b (by simp)
    obtain ⟨rs, hmap, hres, hlog⟩ := ih fun c hc => h c (List.mem_cons_of_mem _ hc)
    refine ⟨⟨b.route settings s.result, b.log settings⟩ :: rs, ?_, ?_, ?_⟩
    · simp [ofBlock_of_ok hs, hmap]
    · simp [routesOf, signature?_of_ok hs, hres]
    · simp [hlog]

/-- Adding the routes of blocks to the initial document assembles it. -/
theorem assembled_withRoutes (settings : Settings) (bs : List Block) :
    Assembled settings bs ((Document.initial settings).withRoutes (routesOf settings bs)) where
  openapi := Document.openapi_withRoutes _ _
  info := Document.info_withRoutes _ _
  template t := by
    rw [Document.isSome_get?_withRoutes]
    constructor
    · rintro (⟨r, hr, rfl⟩ | h)
      · obtain ⟨b, hb, s, hs, rfl⟩ := mem_routesOf.1 hr
        exact ⟨b, hb, s, hs, rfl⟩
      · simp [Document.initial] at h
    · rintro ⟨b, hb, s, hs, rfl⟩
      exact .inl ⟨_, mem_routesOf.2 ⟨b, hb, s, hs, rfl⟩, rfl⟩
  slot t v := by
    rw [Document.isSome_operation?_withRoutes]
    constructor
    · rintro (⟨r, hr, rfl, rfl⟩ | h)
      · obtain ⟨b, hb, s, hs, rfl⟩ := mem_routesOf.1 hr
        exact ⟨b, hb, s, hs, rfl, rfl⟩
      · simp at h
    · rintro ⟨b, hb, s, hs, rfl, rfl⟩
      exact .inl ⟨_, mem_routesOf.2 ⟨b, hb, s, hs, rfl⟩, rfl, rfl⟩
  last b s := by
    rintro ⟨before, after, rfl, hs, hlast⟩
    have hlater : ∀ r ∈ routesOf settings after,
        ¬(r.signature.urlTemplate = s.urlTemplate ∧ r.signature.verb = s.verb) := by
      intro r hr
      obtain ⟨c, hc, q, hq, rfl⟩ := mem_routesOf.1 hr
      exact hlast c hc q hq
    rw [routesOf_append_cons before after hs, Document.withRoutes_append]
    exact (Document.operation?_withRoutes_of_forall (Document.addRoute _ (b.route settings s))
      hlater).trans (by simp [Document.operation?_addRoute, Block.route, ← operation_route])

/-- The components are not among what is assembled. -/
theorem Assembled.setComponents {settings : Settings} {bs : List Block} {d : Document}
    (h : Assembled settings bs d) (c : Json) : Assembled settings bs (d.setComponents c) :=
  ⟨h.openapi, h.info, h.template, h.slot, h.last⟩

/-! ## The document of a source text -/

/-- The first block with a malformed declaration, its failure, and what the blocks in front of it
report. -/
def FirstMalformed (settings : Settings) (bs : List Block) (e : Signature.Malformed)
    (log : List Warning) : Prop :=
  ∃ before b after, bs = before ++ b :: after ∧
    (∀ c ∈ before, ∃ s, Signature.parse c.declaration = .ok s) ∧
    Signature.parse b.declaration = .error e ∧ log = before.flatMap (Block.log settings)

/-- A list of blocks has a first malformed declaration, or all are well formed. -/
theorem firstMalformed_or_forall_ok (settings : Settings) (bs : List Block) :
    (∃ e log, FirstMalformed settings bs e log) ∨
      ∀ b ∈ bs, ∃ s, Signature.parse b.declaration = .ok s := by
  induction bs with
  | nil => simp
  | cons b bs ih =>
    cases hb : Signature.parse b.declaration with
    | error e => exact .inl ⟨e, [], [], b, bs, rfl, by simp, hb, rfl⟩
    | ok s =>
      rcases ih with ⟨e, log, before, c, after, rfl, hok, hc, -⟩ | hok
      · refine .inl ⟨e, _, b :: before, c, after, rfl, ?_, hc, rfl⟩
        simpa [hb] using hok
      · refine .inr ?_
        simpa [hb] using hok

theorem generate_of_firstMalformed {settings : Settings} {source : String}
    {e : Signature.Malformed} {log : List Warning}
    (h : FirstMalformed settings (blocks source) e log) :
    generate settings source = ⟨.error e, log⟩ := by
  obtain ⟨before, b, after, hbs, hok, hb, rfl⟩ := h
  obtain ⟨rs, hmap, -, hlog⟩ := exists_map_ofBlock settings hok
  have hroutes : routes settings source =
      rs.map .ok ++ .error e :: after.map (Route.ofBlock settings) := by
    simp [routes, hbs, hmap, ofBlock_of_error hb]
  simp [generate, hroutes, Document.addRoutes_append, Document.addRoutes, hlog]

theorem generate_of_forall_ok (settings : Settings) {source : String}
    (h : ∀ b ∈ blocks source, ∃ s, Signature.parse b.declaration = .ok s) :
    generate settings source =
      { result := .ok (((Document.initial settings).withRoutes
          (routesOf settings (blocks source))).setComponents (Components.parse source).result)
        log := (blocks source).flatMap (Block.log settings) ++ (Components.parse source).log } := by
  obtain ⟨rs, hmap, hres, hlog⟩ := exists_map_ofBlock settings h
  have hroutes : routes settings source = rs.map .ok ++ [] := by simp [routes, hmap]
  rw [generate, hroutes, Document.addRoutes_append, hres, hlog]
  simp [Document.addRoutes]

/-- What `generate` does for every source text. It fails exactly if a declaration is malformed, and
then with the first one and with what was reported in front of it. Otherwise it gives the document
that the blocks assemble, with the components of the text; the blocks report before the
components do. -/
theorem generate_assembles (settings : Settings) (source : String) :
    ((∃ d, (generate settings source).result = .ok d) ↔
      ∀ b ∈ blocks source, ∃ s, Signature.parse b.declaration = .ok s) ∧
    (∀ e log, generate settings source = ⟨.error e, log⟩ ↔
      FirstMalformed settings (blocks source) e log) ∧
    (∀ d log, generate settings source = ⟨.ok d, log⟩ →
      Assembled settings (blocks source) d ∧
      d.components = (Components.parse source).result ∧
      log = (blocks source).flatMap (Block.log settings) ++ (Components.parse source).log) := by
  rcases firstMalformed_or_forall_ok settings (blocks source) with ⟨e, log, h⟩ | h
  · have hrun := generate_of_firstMalformed h
    obtain ⟨before, b, after, hbs, -, hb, -⟩ := id h
    refine ⟨?_, fun e' log' => ⟨fun h' => ?_, generate_of_firstMalformed⟩, fun d log' h' => ?_⟩
    · constructor
      · rintro ⟨d, hd⟩
        simp [hrun] at hd
      · intro hok
        obtain ⟨s, hs⟩ := hok b (by simp [hbs])
        cases hb.symm.trans hs
    · cases hrun.symm.trans h'
      exact h
    · cases hrun.symm.trans h'
  · have hrun := generate_of_forall_ok settings h
    refine ⟨by simpa [hrun] using h, fun e log => ⟨fun h' => ?_, fun h' => ?_⟩, fun d log h' => ?_⟩
    · cases hrun.symm.trans h'
    · exact generate_of_firstMalformed h'
    · cases hrun.symm.trans h'
      exact ⟨(assembled_withRoutes settings (blocks source)).setComponents _, rfl, rfl⟩

end RouteDocs
