import RouteDocs.Generate
import RouteDocs.Proofs.Source.LineEnding

/-!
# Line endings and the document of a source text

## Main statement

* `generate_withReturns`: the line endings of a source text do not matter for its document, nor for
  what is reported.
-/

namespace RouteDocs

open Text Source

theorem Region.read_withReturns (region : Region) {text : List Char} (h : '\r' ∉ text) :
    region.read (withReturns text) = region.read text :=
  region.read_congr (dedent_withReturns h)

/-- The comment of a block is read as the same mapping. -/
theorem Annotation.parse_withReturns (settings : Settings) {comment : String}
    (h : '\r' ∉ comment.toList) :
    parse settings (String.ofList (withReturns comment.toList)) = parse settings comment :=
  parse_congr settings (by rw [String.toList_ofList, dedent_withReturns h])

theorem Route.ofBlock_withReturns (settings : Settings) {b : Block} (h : '\r' ∉ b.comment.toList) :
    ofBlock settings b.withReturns = ofBlock settings b := by
  have hcomment : Annotation.parse settings b.withReturns.comment =
      Annotation.parse settings b.comment := Annotation.parse_withReturns settings h
  simp only [ofBlock, hcomment]
  rfl

theorem routes_withReturns (settings : Settings) {source : String} (h : '\r' ∉ source.toList) :
    routes settings (String.ofList (withReturns source.toList)) = routes settings source := by
  rw [routes, routes, blocks_withReturns h, List.map_map]
  refine List.map_congr_left fun b hb => Route.ofBlock_withReturns settings fun hmem => ?_
  exact h (comment_subset_of_mem_blocks hb hmem)

namespace Components

/-- The same components region is found. -/
theorem region?_withReturns {source : String} (h : '\r' ∉ source.toList) :
    region? (String.ofList (withReturns source.toList)) = (region? source).map withReturns := by
  rw [region?, region?, String.toList_ofList,
    Pattern.search?_withReturns Pattern.ignoresReturns_componentsRegion h]
  simp [Function.comp_def, Match.group_withReturns]

theorem region?_subset {source : String} {text : List Char} (h : region? source = some text) :
    text ⊆ source.toList := by
  obtain ⟨⟨skipped, m⟩, hm, rfl⟩ := Option.map_eq_some_iff.1 h
  rw [Pattern.append_of_search? hm]
  refine List.Subset.trans (m.group_subset 0) ?_
  simp

theorem parse_withReturns {source : String} (h : '\r' ∉ source.toList) :
    parse (String.ofList (withReturns source.toList)) = parse source := by
  rw [parse, parse, region?_withReturns h]
  cases hregion : region? source with
  | none => rfl
  | some text =>
    have htext : '\r' ∉ text := fun hmem => h (region?_subset hregion hmem)
    rw [Option.map_some]
    simp only [Region.read_withReturns _ htext]

end Components

/-- A source text whose line feeds have a carriage return in front gives the same document as with
line feeds alone, or the same failure, and the same is reported. -/
theorem generate_withReturns (settings : Settings) {source : String} (h : '\r' ∉ source.toList) :
    generate settings (String.ofList (withReturns source.toList)) = generate settings source := by
  rw [generate, generate, routes_withReturns settings h, Components.parse_withReturns h]

/-- A text with one block. -/
def oneRoute : String :=
  "routes:get(\"@/users\", function(self)\n--[[\ndescription: All users\n--]]\n"

theorem generate_withReturns_oneRoute :
    '\r' ∉ oneRoute.toList ∧
      generate {} (String.ofList (withReturns oneRoute.toList)) = generate {} oneRoute :=
  ⟨by decide, generate_withReturns {} (by decide)⟩

end RouteDocs
