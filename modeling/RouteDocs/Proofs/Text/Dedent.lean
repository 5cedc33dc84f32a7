import RouteDocs.Proofs.Text.Indentation

/-!
# Texts that are not indented

Lines that are cut apart and joined again are the text without the line feed at its end. So a text
with a line that is not indented loses this line feed when it is dedented, and nothing else.

## Main definition

* `Text.dropFeed`: the text without the line feed at its end.

## Main statement

* `Text.dedent_eq_dropFeed`: what dedenting does to a text with a line that is not indented.
-/

namespace RouteDocs.Text

variable {s t : List Char}

/-- The text without the line feed at its end, if it ends with one. -/
def dropFeed : List Char → List Char
  | [] => []
  | ['\n'] => []
  | c :: s => c :: dropFeed s

theorem dropFeed_cons (c : Char) (h : s ≠ []) : dropFeed (c :: s) = c :: dropFeed s := by
  cases s with
  | nil => exact absurd rfl h
  | cons d s =>
    rw [dropFeed]
    simp

theorem dropFeed_append (s : List Char) (h : t ≠ []) : dropFeed (s ++ t) = s ++ dropFeed t := by
  induction s with
  | nil => rfl
  | cons c s ih => rw [List.cons_append, dropFeed_cons c (by simp [h]), ih, List.cons_append]

@[simp] theorem dropFeed_append_lineFeed (s : List Char) : dropFeed (s ++ ['\n']) = s := by
  rw [dropFeed_append s (by simp), dropFeed, List.append_nil]

theorem dropFeed_of_getLast?_ne (h : s.getLast? ≠ some '\n') : dropFeed s = s := by
  induction s with
  | nil => rfl
  | cons c s ih =>
    cases s with
    | nil =>
      have hc : c ≠ '\n' := by simpa using h
      rw [dropFeed]
      · rfl
      · exact fun heq _ => hc heq
    | cons d s =>
      rw [dropFeed_cons c (by simp), ih]
      rwa [List.getLast?_cons_cons] at h

theorem dropFeed_eq_self_iff : dropFeed s = s ↔ s.getLast? ≠ some '\n' := by
  refine ⟨fun h hlast => ?_, dropFeed_of_getLast?_ne⟩
  obtain ⟨t, rfl⟩ := List.getLast?_eq_some_iff.1 hlast
  simp at h

theorem dropFeed_of_not_mem (h : '\n' ∉ s) : dropFeed s = s :=
  dropFeed_of_getLast?_ne fun hlast => h (List.mem_of_getLast? hlast)

theorem dropFeed_prefix (s : List Char) : dropFeed s <+: s := by
  fun_induction dropFeed s with
  | case1 => exact List.nil_prefix
  | case2 => exact List.nil_prefix
  | case3 c s _ ih => exact (List.prefix_cons_inj c).2 ih

/-- A text is the one without the line feed, or that with a line feed behind it. -/
theorem eq_dropFeed_or_append (s : List Char) :
    s = dropFeed s ∧ s.getLast? ≠ some '\n' ∨ s = dropFeed s ++ ['\n'] := by
  by_cases h : s.getLast? = some '\n'
  · obtain ⟨t, rfl⟩ := List.getLast?_eq_some_iff.1 h
    exact .inr (by simp)
  · exact .inl ⟨(dropFeed_of_getLast?_ne h).symm, h⟩

/-! ## Lines -/

/-- Joined lines are the text without the line feed at its end. -/
theorem intercalate_lines (hs : '\r' ∉ s) : List.intercalate ['\n'] (lines s) = dropFeed s := by
  obtain ⟨ts, h⟩ := exists_hasLines s
  induction h with
  | nil => rfl
  | last hne hl => simp [lines_of_not_mem hne hl, dropFeed_of_not_mem hl]
  | @lineFeed l s ts hl hlast h ih =>
    rw [lines_append_lineFeed hl, dropReturn_of_getLast?_ne hlast]
    cases hls : lines s with
    | nil =>
      have hts : ts = [] := by simpa [lines_eq_of_hasLines h] using hls
      have hnil : s = [] := by rw [← textOf_of_hasLines h, hts]; rfl
      simp [hnil]
    | cons k ls =>
      have hne : s ≠ [] := by
        rintro rfl
        simp [lines, linesFrom] at hls
      have hlater : List.intercalate ['\n'] (lines s) = dropFeed s := ih (by grind)
      rw [dropFeed_append _ (by simp), dropFeed_cons _ hne, ← hlater, hls]
      simp [List.intercalate_cons_cons]
  | returnFeed => simp at hs

/-- The first line starts with the first character. -/
theorem exists_cons_mem_lines {c : Char} (hs : '\r' ∉ c :: s) (hc : c ≠ '\n') :
    ∃ l, c :: l ∈ lines (c :: s) := by
  by_cases hfeed : '\n' ∈ s
  · obtain ⟨l, rest, rfl, hl⟩ := List.eq_append_cons_of_mem hfeed
    have hline : dropReturn (c :: l) = c :: l := dropReturn_of_not_mem (by grind)
    have hcut := lines_append_lineFeed (l := c :: l) (s := rest) (by simp [hc.symm, hl])
    exact ⟨l, by rw [← List.cons_append, hcut, hline]; exact List.mem_cons_self⟩
  · refine ⟨s, ?_⟩
    rw [lines_of_not_mem (by simp) (by simp [hc.symm, hfeed])]
    exact List.mem_cons_self

/-! ## Indentation -/

theorem outdent_zero (line : List Char) : outdent 0 line = line := by
  simp [outdent, dropBytes?]

/-- A text with a line that is not indented loses the line feed at its end. -/
theorem dedent_eq_dropFeed {l : List Char} (hs : '\r' ∉ s) (hl : l ∈ lines s)
    (hblank : blankLine l = false) (hindent : indentation l = 0) : dedent s = dropFeed s := by
  have hzero : commonIndentation (lines s) = 0 :=
    Nat.le_zero.1 (hindent ▸ commonIndentation_le hl hblank)
  have hkept : (lines s).map (outdent 0) = lines s := by
    rw [List.map_congr_left fun l _ => outdent_zero l, List.map_id']
  simp only [dedent, hzero, hkept]
  exact intercalate_lines hs

/-- Here the second line is not indented. -/
theorem dedent_lineFeed_cons {c : Char} (hs : '\r' ∉ c :: s) (hc : isSpace c = false) :
    dedent ('\n' :: c :: s) = '\n' :: dropFeed (c :: s) := by
  have hfeed : c ≠ '\n' := by
    rintro rfl
    exact absurd hc (by decide)
  have hblank : isBlank c = false :=
    Bool.eq_false_iff.2 fun h => absurd (isSpace_of_isBlank h) (by simp [hc])
  obtain ⟨l, hl⟩ := exists_cons_mem_lines hs hfeed
  have hline : c :: l ∈ lines ('\n' :: c :: s) := by
    have hcut := lines_append_lineFeed (l := []) (s := c :: s) (by simp)
    rw [List.nil_append] at hcut
    exact hcut ▸ List.mem_cons_of_mem _ hl
  rw [dedent_eq_dropFeed (by simpa using hs) hline (by simp [blankLine, hc])
    (by simp [indentation, hblank]), dropFeed_cons _ (by simp)]

end RouteDocs.Text
