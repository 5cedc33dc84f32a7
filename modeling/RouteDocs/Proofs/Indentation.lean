import RouteDocs.Proofs.Text.Indentation
import RouteDocs.Route.Annotation

/-!
# The indentation of a route comment

## Main statement

* `dedent_normalizes`: what dedenting makes of the lines of a text, and that spaces and tabs in
  front of all lines change nothing in what a comment documents.
-/

namespace RouteDocs

open Text

/-- Every text has lines. Dedenting joins them by line feeds, each line that is not blank without
the same number of spaces and tabs. With more of these in front of every line, a text with a line
that is not blank is dedented to the same, and as a comment it documents and reports the same. -/
theorem dedent_normalizes (s : List Char) :
    (∃ ts, HasLines s ts) ∧
    ∀ ts, HasLines s ts →
      (∃ outs, IsDedented (ts.map Line.content) outs ∧
        dedent s = List.intercalate ['\n'] outs) ∧
      ∀ w, (∀ c ∈ w, isBlank c = true) → (∃ t ∈ ts, blankLine t.content = false) →
        dedent (textOf (ts.map (Line.indent w))) = dedent s ∧
        ∀ settings, Annotation.parse settings (String.ofList (textOf (ts.map (Line.indent w)))) =
          Annotation.parse settings (String.ofList s) := by
  refine ⟨exists_hasLines s, fun ts h => ⟨?_, fun w hw hex => ?_⟩⟩
  · refine ⟨_, isDedented_map_outdent _, ?_⟩
    rw [dedent, lines_eq_of_hasLines h]
  · have hsame := dedent_indent hw h hex
    refine ⟨hsame, fun settings => Annotation.parse_congr settings ?_⟩
    rw [String.toList_ofList, String.toList_ofList, hsame]

/-- Lines with a blank one between two that are indented differently. -/
def unevenLines : List Line :=
  [⟨[' ', 'a', ':'], ['\n']⟩, ⟨['\t'], ['\r', '\n']⟩, ⟨[' ', ' ', 'b'], []⟩]

theorem dedent_normalizes_unevenLines :
    HasLines (textOf unevenLines) unevenLines ∧ (∀ c ∈ ['\t'], isBlank c = true) ∧
      (∃ t ∈ unevenLines, blankLine t.content = false) ∧
      dedent (textOf (unevenLines.map (Line.indent ['\t']))) = dedent (textOf unevenLines) ∧
      ∀ settings,
        Annotation.parse settings (String.ofList (textOf (unevenLines.map (Line.indent ['\t'])))) =
          Annotation.parse settings (String.ofList (textOf unevenLines)) := by
  have hlines : HasLines (textOf unevenLines) unevenLines :=
    .lineFeed (l := [' ', 'a', ':']) (by decide) (by decide)
      (.returnFeed (l := ['\t']) (by decide) (.last (by decide) (by decide)))
  have hblank : ∀ c ∈ ['\t'], isBlank c = true := by simp [isBlank]
  have hsolid : ∃ t ∈ unevenLines, blankLine t.content = false :=
    ⟨_, List.mem_cons_self, by decide⟩
  exact ⟨hlines, hblank, hsolid, ((dedent_normalizes _).2 _ hlines).2 _ hblank hsolid⟩

end RouteDocs
