import RouteDocs.Proofs.Generate
import RouteDocs.Proofs.Source.Append

/-!
# The document of two source texts

What two source texts document together, one after the other on new lines, is what the first one
documents with what the second one documents laid over it: in every slot that the second text fills,
its operation takes the place of the first one's.

## Main definition

* `Document.Overlays`: the paths of one document laid over those of another.

## Main statements

* `Document.Overlays.paths_eq`: there is only one way to lay paths over paths.
* `generate_append_lineFeed`: what `generate` gives for two source texts with a line feed between
  them.
-/

namespace RouteDocs

open Source

namespace Document

/-! ## Paths over paths -/

/-- The paths of `d` are those of `lower` with those of `upper` laid over them, slot by slot. -/
structure Overlays (upper lower d : Document) : Prop where
  template : ∀ t, (d.paths.get? t).isSome ↔
    (lower.paths.get? t).isSome ∨ (upper.paths.get? t).isSome
  operation : ∀ t v, d.operation? t v = (upper.operation? t v).or (lower.operation? t v)

/-- There is only one way to lay paths over paths. -/
theorem Overlays.paths_eq {upper lower d e : Document} (hd : upper.Overlays lower d)
    (he : upper.Overlays lower e) : d.paths = e.paths := by
  refine paths_ext (fun t => ?_) fun t v => (hd.operation t v).trans (he.operation t v).symm
  rw [← Option.not_isSome_iff_eq_none, ← Option.not_isSome_iff_eq_none, hd.template, he.template]

theorem overlays_withRoutes (settings : Settings) (rs qs : List Route) :
    Overlays ((initial settings).withRoutes qs) ((initial settings).withRoutes rs)
      ((initial settings).withRoutes (rs ++ qs)) where
  template t := by
    rw [withRoutes_append, isSome_get?_withRoutes, isSome_get?_withRoutes _ qs, or_comm]
    simp [initial]
  operation t v := by
    rw [withRoutes_append, operation?_withRoutes, operation?_withRoutes _ qs, operation?_initial,
      Option.or_none]

/-- The components are not among the paths. -/
theorem Overlays.setComponents {upper lower d : Document} (h : upper.Overlays lower d)
    (c c' c'' : Json) :
    (upper.setComponents c).Overlays (lower.setComponents c') (d.setComponents c'') :=
  ⟨h.template, h.operation⟩

end Document

/-! ## Failures -/

section FirstMalformed

variable {settings : Settings} {bs cs : List Block} {e : Signature.Malformed} {log : List Warning}

/-- What comes after the first malformed declaration does not matter. -/
theorem FirstMalformed.append_right (h : FirstMalformed settings bs e log) (cs : List Block) :
    FirstMalformed settings (bs ++ cs) e log := by
  obtain ⟨before, b, after, rfl, hok, hb, hlog⟩ := h
  exact ⟨before, b, after ++ cs, by simp, hok, hb, hlog⟩

/-- Well-formed declarations in front add to what is reported. -/
theorem FirstMalformed.append_left (h : FirstMalformed settings cs e log)
    (hbs : ∀ b ∈ bs, ∃ s, Signature.parse b.declaration = .ok s) :
    FirstMalformed settings (bs ++ cs) e (bs.flatMap (Block.log settings) ++ log) := by
  obtain ⟨before, b, after, rfl, hok, hb, rfl⟩ := h
  refine ⟨bs ++ before, b, after, by simp, fun c hc => ?_, hb, by simp⟩
  rcases List.mem_append.1 hc with hc | hc
  · exact hbs c hc
  · exact hok c hc

end FirstMalformed

/-! ## Two source texts -/

/-- If every comment of the first text is closed there, and its last line does not begin like a
declaration, then the blocks of both texts are the blocks of the one and then those of the other. A
failure of the first text comes before one of the second. Without a failure, the paths of the second
text are laid over those of the first. -/
theorem generate_append_lineFeed (settings : Settings) {first : String} (second : String)
    (hclosed : AllClosed first) (hlast : ¬BeginsDeclaration (lastLine first.toList)) :
    blocks (first ++ "\n" ++ second) = blocks first ++ blocks second ∧
      match (generate settings first).result, (generate settings second).result with
      | .error e, _ => (generate settings (first ++ "\n" ++ second)).result = .error e
      | .ok _, .error e => (generate settings (first ++ "\n" ++ second)).result = .error e
      | .ok lower, .ok upper =>
        ∃ d, (generate settings (first ++ "\n" ++ second)).result = .ok d ∧
          upper.Overlays lower d := by
  have hblocks := blocks_append_lineFeed second hclosed hlast
  refine ⟨hblocks, ?_⟩
  rcases firstMalformed_or_forall_ok settings (blocks first) with ⟨e, log, h⟩ | h
  · have hboth := generate_of_firstMalformed (hblocks ▸ h.append_right (blocks second))
    rw [generate_of_firstMalformed h, hboth]
  · rw [generate_of_forall_ok settings h]
    rcases firstMalformed_or_forall_ok settings (blocks second) with ⟨e, log, h'⟩ | h'
    · have hboth := generate_of_firstMalformed (hblocks ▸ h'.append_left h)
      rw [generate_of_firstMalformed h', hboth]
    · have hall : ∀ b ∈ blocks (first ++ "\n" ++ second),
          ∃ s, Signature.parse b.declaration = .ok s := by
        intro b hb
        rcases List.mem_append.1 (hblocks ▸ hb) with hb | hb
        · exact h b hb
        · exact h' b hb
      rw [generate_of_forall_ok settings h', generate_of_forall_ok settings hall]
      refine ⟨_, rfl, ?_⟩
      rw [hblocks, routesOf_append]
      exact (Document.overlays_withRoutes settings _ _).setComponents _ _ _

/-- A source text of one route, without a line feed at its end. -/
def firstRoute : String := "routes:get(\"@/\", function()\n--[[]]"

/-- The opening that the scan meets in it. -/
def firstOpening : Opening :=
  ⟨"routes:get(\"@/\", function()".toList, 0,
    ⟨"routes:get(\"@/\", function()\n--[[".toList, [']', ']']⟩⟩

theorem block?_firstOpening :
    firstOpening.block? =
      some (⟨"routes:get(\"@/\", function()", ""⟩, ⟨firstRoute.toList, []⟩) := rfl

theorem openings_firstRoute : (Cursor.start firstRoute.toList).openings = [firstOpening] := by
  have ho : (Cursor.start firstRoute.toList).opening? = some firstOpening := rfl
  rw [Cursor.openings_of_block?_eq_some ho block?_firstOpening,
    Cursor.openings_of_opening?_eq_none rfl]

/-- A source text with two routes: the first one takes the slot of the route above. -/
def secondRoutes : String :=
  "routes:get(\"@/\", function()\n--[[a]]\nroutes:put(\"@/\", function()\n--[[b]]"

/-- The place between the two routes. -/
def betweenRoutes : Cursor :=
  ⟨"routes:get(\"@/\", function()\n--[[a]]".toList,
    "\nroutes:put(\"@/\", function()\n--[[b]]".toList⟩

theorem blocks_secondRoutes :
    blocks secondRoutes =
      [⟨"routes:get(\"@/\", function()", "a"⟩, ⟨"routes:put(\"@/\", function()", "b"⟩] := by
  have hfirst : (Cursor.start secondRoutes.toList).opening? =
      some ⟨"routes:get(\"@/\", function()".toList, 0,
        ⟨"routes:get(\"@/\", function()\n--[[".toList,
          "a]]\nroutes:put(\"@/\", function()\n--[[b]]".toList⟩⟩ := rfl
  have hsecond : betweenRoutes.opening? =
      some ⟨"routes:put(\"@/\", function()".toList, 0,
        ⟨"routes:get(\"@/\", function()\n--[[a]]\nroutes:put(\"@/\", function()\n--[[".toList,
          "b]]".toList⟩⟩ := rfl
  have htail : (Cursor.mk secondRoutes.toList []).blocks = [] :=
    Cursor.blocks_of_opening?_eq_none rfl
  have hput : betweenRoutes.blocks = [⟨"routes:put(\"@/\", function()", "b"⟩] :=
    (Cursor.blocks_of_block?_eq_some hsecond rfl).trans (congrArg _ htail)
  exact (Cursor.blocks_of_block?_eq_some hfirst rfl).trans (congrArg _ hput)

/-- Two texts: the route of the first one gives way to that of the second one in the same slot. -/
theorem generate_append_lineFeed_routes :
    blocks (firstRoute ++ "\n" ++ secondRoutes) = blocks firstRoute ++ blocks secondRoutes ∧
      ∃ lower upper d, (generate {} firstRoute).result = .ok lower ∧
        (generate {} secondRoutes).result = .ok upper ∧
        (generate {} (firstRoute ++ "\n" ++ secondRoutes)).result = .ok d ∧
        upper.Overlays lower d := by
  have hclosed : AllClosed firstRoute := by
    rw [AllClosed, openings_firstRoute]
    simp [block?_firstOpening]
  have hfirst : ∀ b ∈ blocks firstRoute, ∃ s, Signature.parse b.declaration = .ok s := by
    rw [blocks, Cursor.blocks_eq_filterMap_openings, openings_firstRoute]
    simp only [List.filterMap_cons, block?_firstOpening, Option.map_some, List.filterMap_nil,
      List.forall_mem_singleton]
    exact ⟨_, rfl⟩
  have hsecond : ∀ b ∈ blocks secondRoutes, ∃ s, Signature.parse b.declaration = .ok s := by
    rw [blocks_secondRoutes, List.forall_mem_cons, List.forall_mem_singleton]
    exact ⟨⟨_, rfl⟩, ⟨_, rfl⟩⟩
  obtain ⟨hblocks, h⟩ := generate_append_lineFeed {} secondRoutes hclosed (by decide)
  refine ⟨hblocks, ?_⟩
  rw [generate_of_forall_ok {} hfirst, generate_of_forall_ok {} hsecond] at h ⊢
  obtain ⟨d, hd, hover⟩ := h
  exact ⟨_, _, d, rfl, rfl, hd, hover⟩

end RouteDocs
