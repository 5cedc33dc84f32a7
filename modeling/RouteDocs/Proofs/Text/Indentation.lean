import Mathlib.Data.List.Forall2
import RouteDocs.Proofs.Text.Bytes
import RouteDocs.Proofs.Text.LineEnding

/-!
# The indentation of a text

Dedenting takes the same number of spaces and tabs from every line that is not blank, and this is
the largest number that all of them have. So white space that is put in front of all lines goes
again.

## Main definitions

* `Line`, `HasLines`: the lines of a text and what ends them.
* `IsDedented`: what dedenting makes of the lines of a text.

## Main statements

* `lines_eq_of_hasLines`, `exists_hasLines`: every text has lines, and these are the ones it is cut
  into.
* `commonIndentation_eq_iff`: the smallest indentation of a line that is not blank.
* `isDedented_map_outdent`: dedenting the lines of a text.
* `dedent_indent`: dedenting a text with spaces and tabs in front of every line.
-/

namespace RouteDocs.Text

variable {s w l o : List Char} {ls outs : List (List Char)} {ts : List Line} {m n : Nat}

/-! ## Lines and what ends them -/

/-- A line of a text and what ends it there. -/
structure Line where
  content : List Char
  ending : List Char

/-- The line with `w` in front. -/
def Line.indent (w : List Char) (l : Line) : Line := { l with content := w ++ l.content }

/-- Lines one after the other, each with what ends it. -/
def textOf (ts : List Line) : List Char := ts.flatMap fun l => l.content ++ l.ending

/-- The text `s` has these lines. A line ends with the first line feed, and a carriage return in
front of it belongs to the ending; the last line may also end with the text, unless it is empty. -/
inductive HasLines : List Char → List Line → Prop
  | nil : HasLines [] []
  | last {l : List Char} (hne : l ≠ []) (hl : '\n' ∉ l) : HasLines l [⟨l, []⟩]
  | lineFeed {l s : List Char} {ts : List Line} (hl : '\n' ∉ l) (hlast : l.getLast? ≠ some '\r')
      (h : HasLines s ts) : HasLines (l ++ '\n' :: s) (⟨l, ['\n']⟩ :: ts)
  | returnFeed {l s : List Char} {ts : List Line} (hl : '\n' ∉ l) (h : HasLines s ts) :
      HasLines (l ++ '\r' :: '\n' :: s) (⟨l, ['\r', '\n']⟩ :: ts)

theorem linesFrom_append_of_not_mem {current : List Char} (hl : '\n' ∉ l) :
    linesFrom current (l ++ s) = linesFrom (l.reverse ++ current) s := by
  induction l generalizing current with
  | nil => rfl
  | cons c l ih =>
    have hc := (List.ne_of_not_mem_cons hl).symm
    rw [List.cons_append, linesFrom, if_neg hc, ih (List.not_mem_of_not_mem_cons hl)]
    simp

theorem lines_append_lineFeed (hl : '\n' ∉ l) :
    lines (l ++ '\n' :: s) = dropReturn l :: lines s := by
  rw [lines, linesFrom_append_of_not_mem hl, linesFrom, if_pos rfl]
  simp [lines]

theorem lines_of_not_mem (hne : l ≠ []) (hl : '\n' ∉ l) : lines l = [l] := by
  have h : linesFrom [] (l ++ []) = linesFrom (l.reverse ++ []) [] := linesFrom_append_of_not_mem hl
  simpa [lines, linesFrom, hne] using h

/-- The lines that a text is cut into. -/
theorem lines_eq_of_hasLines (h : HasLines s ts) : lines s = ts.map Line.content := by
  induction h with
  | nil => rfl
  | last hne hl => exact lines_of_not_mem hne hl
  | lineFeed hl hlast h ih =>
    rw [lines_append_lineFeed hl, dropReturn_of_getLast?_ne hlast, ih, List.map_cons]
  | @returnFeed l s ts hl h ih =>
    have hcut : l ++ '\r' :: '\n' :: s = l ++ ['\r'] ++ '\n' :: s := by simp
    rw [hcut, lines_append_lineFeed (by simpa using hl), dropReturn_append_return, ih,
      List.map_cons]

theorem textOf_of_hasLines (h : HasLines s ts) : textOf ts = s := by
  induction h with
  | nil => rfl
  | last | lineFeed | returnFeed => simp_all [textOf]

theorem exists_hasLines (s : List Char) : ∃ ts, HasLines s ts := by
  by_cases hfeed : '\n' ∈ s
  · obtain ⟨l, rest, rfl, hl⟩ := List.eq_append_cons_of_mem hfeed
    obtain ⟨ts, hts⟩ := exists_hasLines rest
    by_cases hlast : l.getLast? = some '\r'
    · obtain ⟨t, rfl⟩ := List.getLast?_eq_some_iff.1 hlast
      have hreturn := HasLines.returnFeed (l := t) (by simpa using hl) hts
      exact ⟨_, by simpa using hreturn⟩
    · exact ⟨_, .lineFeed hl hlast hts⟩
  · by_cases hne : s = []
    · exact ⟨[], hne ▸ .nil⟩
    · exact ⟨_, .last hne hfeed⟩
termination_by s.length

/-- A text with spaces and tabs in front of every line has the lines with these in front. -/
theorem HasLines.indent (hw : ∀ c ∈ w, isBlank c = true) (h : HasLines s ts) :
    HasLines (textOf (ts.map (Line.indent w))) (ts.map (Line.indent w)) := by
  have hfeed : '\n' ∉ w := fun hmem => absurd (hw _ hmem) (by decide)
  have hreturn : w.getLast? ≠ some '\r' := fun hlast =>
    absurd (hw _ (List.mem_of_getLast? hlast)) (by decide)
  induction h with
  | nil => exact .nil
  | @last l hne hl =>
    have hline : HasLines (w ++ l) [⟨w ++ l, []⟩] := .last (by simp [hne]) (by simp [hfeed, hl])
    simpa [textOf, Line.indent] using hline
  | @lineFeed l s ts hl hlast h ih =>
    have hend : (w ++ l).getLast? ≠ some '\r' := by grind
    have hline := HasLines.lineFeed (l := w ++ l) (by simp [hfeed, hl]) hend ih
    simpa [textOf, Line.indent] using hline
  | @returnFeed l s ts hl h ih =>
    have hline := HasLines.returnFeed (l := w ++ l) (by simp [hfeed, hl]) ih
    simpa [textOf, Line.indent] using hline

/-! ## The common indentation -/

theorem commonIndentation_eq_iff (hex : ∃ l ∈ ls, blankLine l = false) :
    commonIndentation ls = n ↔
      (∃ l ∈ ls, blankLine l = false ∧ indentation l = n) ∧
        ∀ l ∈ ls, blankLine l = false → n ≤ indentation l := by
  have hmem : ∀ k, k ∈ (ls.filter fun l => !blankLine l).map indentation ↔
      ∃ l ∈ ls, blankLine l = false ∧ indentation l = k := by
    simp [and_assoc]
  have hmin : ((ls.filter fun l => !blankLine l).map indentation).min? =
      some (commonIndentation ls) := by
    obtain ⟨l, hl, hsolid⟩ := hex
    unfold commonIndentation
    cases hnone : ((ls.filter fun l => !blankLine l).map indentation).min? with
    | some => rfl
    | none =>
      have hnil := List.min?_eq_none_iff.1 hnone
      have := (hmem _).2 ⟨l, hl, hsolid, rfl⟩
      simp [hnil] at this
  rw [← Option.some_inj, ← hmin, List.min?_eq_some_iff, hmem]
  refine and_congr_right fun _ => ⟨fun h l hl hsolid => ?_, fun h k hk => ?_⟩
  · exact h _ ((hmem _).2 ⟨l, hl, hsolid, rfl⟩)
  · obtain ⟨l, hl, hsolid, rfl⟩ := (hmem k).1 hk
    exact h l hl hsolid

theorem commonIndentation_le (hl : l ∈ ls) (hsolid : blankLine l = false) :
    commonIndentation ls ≤ indentation l :=
  ((commonIndentation_eq_iff ⟨l, hl, hsolid⟩).1 rfl).2 l hl hsolid

theorem exists_indentation_eq (hex : ∃ l ∈ ls, blankLine l = false) :
    ∃ l ∈ ls, blankLine l = false ∧ indentation l = commonIndentation ls :=
  ((commonIndentation_eq_iff hex).1 rfl).1

/-! ## Spaces and tabs in front of a line -/

theorem byteLength_of_blank (hw : ∀ c ∈ w, isBlank c = true) : byteLength w = w.length := by
  induction w with
  | nil => rfl
  | cons c w ih =>
    obtain ⟨hc, hw⟩ := List.forall_mem_cons.1 hw
    have hsize : c.utf8Size = 1 := by
      simp only [isBlank, Bool.or_eq_true, beq_iff_eq] at hc
      rcases hc with rfl | rfl <;> rfl
    simp only [byteLength, ih hw, hsize, List.length_cons]
    omega

theorem indentation_append (hw : ∀ c ∈ w, isBlank c = true) :
    indentation (w ++ l) = w.length + indentation l := by
  simp [indentation, List.takeWhile_append_of_pos hw]

theorem blankLine_append (hw : ∀ c ∈ w, isBlank c = true) :
    blankLine (w ++ l) = blankLine l := by
  have hspace : w.all isSpace = true :=
    List.all_eq_true.2 fun c hc => isSpace_of_isBlank (hw c hc)
  simp [blankLine, hspace]

theorem outdent_append (hw : ∀ c ∈ w, isBlank c = true) :
    outdent (w.length + n) (w ++ l) = outdent n l := by
  have htrim : trimStart (w ++ l) = trimStart l :=
    List.dropWhile_append_of_pos fun c hc => isSpace_of_isBlank (hw c hc)
  rw [outdent, ← byteLength_of_blank hw, dropBytes?_byteLength_add, htrim, outdent]

/-- White space in front of all lines is part of what they share. -/
theorem commonIndentation_map_append (hw : ∀ c ∈ w, isBlank c = true)
    (hex : ∃ l ∈ ls, blankLine l = false) :
    commonIndentation (ls.map (w ++ ·)) = w.length + commonIndentation ls := by
  obtain ⟨l, hl, hsolid, hmin⟩ := exists_indentation_eq hex
  have hmem : w ++ l ∈ ls.map (w ++ ·) := List.mem_map_of_mem hl
  have hsolid' : blankLine (w ++ l) = false := by rw [blankLine_append hw, hsolid]
  refine (commonIndentation_eq_iff ⟨w ++ l, hmem, hsolid'⟩).2
    ⟨⟨w ++ l, hmem, hsolid', by rw [indentation_append hw, hmin]⟩, ?_⟩
  intro k hk hk'
  obtain ⟨j, hj, rfl⟩ := List.mem_map.1 hk
  rw [blankLine_append hw] at hk'
  rw [indentation_append hw]
  exact Nat.add_le_add_left (commonIndentation_le hj hk') _

/-- White space in front of all lines does not matter when a text is dedented. -/
theorem dedent_indent (hw : ∀ c ∈ w, isBlank c = true) (h : HasLines s ts)
    (hex : ∃ t ∈ ts, blankLine t.content = false) :
    dedent (textOf (ts.map (Line.indent w))) = dedent s := by
  have hlines : lines (textOf (ts.map (Line.indent w))) = (lines s).map (w ++ ·) := by
    rw [lines_eq_of_hasLines (h.indent hw), lines_eq_of_hasLines h]
    simp [Line.indent]
  have hsolid : ∃ l ∈ lines s, blankLine l = false := by
    rw [lines_eq_of_hasLines h]
    simpa using hex
  have hcut : outdent (w.length + commonIndentation (lines s)) ∘ (w ++ ·) =
      outdent (commonIndentation (lines s)) := funext fun l => outdent_append hw
  simp only [dedent, hlines, commonIndentation_map_append hw hsolid, List.map_map, hcut]

/-! ## What dedenting makes of the lines -/

/-- What becomes of a line when `m` bytes are taken from the lines that are not blank: such a line
starts with as many bytes of spaces and tabs, and loses these. A blank line stays one; nothing but a
part at its start may be missing. -/
inductive Outdents (m : Nat) (l o : List Char) : Prop
  | solid (indent : List Char) (hsolid : blankLine l = false) (hcut : l = indent ++ o)
      (hbytes : byteLength indent = m) (hindent : ∀ c ∈ indent, isBlank c = true)
  | blank (hblank : blankLine l = true) (hstays : blankLine o = true) (hcut : o <:+ l)

/-- The lines `outs` are the lines `ls` without the indentation that those which are not blank
share. -/
structure IsDedented (ls outs : List (List Char)) : Prop where
  /-- All lines that are not blank lose the same. -/
  outdents : ∃ m, List.Forall₂ (Outdents m) ls outs
  /-- Some line is not indented any more. -/
  margin : (∃ l ∈ ls, blankLine l = false) →
    ∃ o ∈ outs, blankLine o = false ∧ ∀ c ∈ o.head?, isBlank c = false
  /-- One line stays indented further than another by as much. -/
  difference : ∀ p ∈ ls.zip outs, ∀ q ∈ ls.zip outs, blankLine p.1 = false →
    blankLine q.1 = false → (indentation p.2 : Int) - indentation q.2 =
      indentation p.1 - indentation q.1

theorem suffix_outdent (m : Nat) (l : List Char) : outdent m l <:+ l := by
  unfold outdent
  cases h : dropBytes? m l with
  | none => exact List.dropWhile_suffix isSpace
  | some t =>
    obtain ⟨a, rfl, -⟩ := dropBytes?_eq_some_iff.1 h
    exact List.suffix_append a t

theorem outdents_outdent (hm : blankLine l = false → m ≤ indentation l) :
    Outdents m l (outdent m l) := by
  cases hl : blankLine l with
  | true =>
    have hspace := List.all_eq_true.1 hl
    exact .blank hl (List.all_eq_true.2 fun c hc => hspace c ((suffix_outdent m l).subset hc))
      (suffix_outdent m l)
  | false =>
    have hindent : ∀ c ∈ l.take m, isBlank c = true := by
      intro c hc
      have hpre : l.take m <+: l.takeWhile isBlank :=
        List.prefix_of_prefix_length_le (List.take_prefix m l) (List.takeWhile_prefix isBlank)
          (Nat.le_trans (List.length_take_le m l) (hm hl))
      exact List.all_eq_true.1 List.all_takeWhile c (hpre.subset hc)
    have hlen : (l.take m).length = m := by
      have := (List.takeWhile_prefix (l := l) isBlank).length_le
      have := hm hl
      simp only [indentation] at this
      simp only [List.length_take]
      omega
    have hcut : outdent m l = l.drop m := by
      have h := outdent_append (n := 0) (l := l.drop m) hindent
      rw [List.take_append_drop, hlen] at h
      simpa [outdent, dropBytes?] using h
    refine .solid (l.take m) hl ?_ ?_ hindent
    · rw [hcut, List.take_append_drop]
    · rw [byteLength_of_blank hindent, hlen]

theorem Outdents.indentation_eq (h : Outdents m l o) (hsolid : blankLine l = false) :
    indentation l = m + indentation o := by
  cases h with
  | solid indent hs hcut hbytes hindent =>
    rw [hcut, indentation_append hindent, ← hbytes, byteLength_of_blank hindent]
  | blank hblank => simp [hblank] at hsolid

theorem Outdents.blankLine_eq (h : Outdents m l o) : blankLine o = blankLine l := by
  cases h with
  | solid indent hs hcut hbytes hindent => rw [hcut, blankLine_append hindent]
  | blank hblank hstays => rw [hblank, hstays]

theorem isBlank_eq_false_of_indentation_eq_zero (h : indentation o = 0) :
    ∀ c ∈ o.head?, isBlank c = false := by
  cases o <;> grind [indentation, List.takeWhile_cons]

theorem isDedented_map_outdent (ls : List (List Char)) :
    IsDedented ls (ls.map (outdent (commonIndentation ls))) := by
  have houtdents : ∀ l ∈ ls, Outdents (commonIndentation ls) l (outdent (commonIndentation ls) l) :=
    fun l hl => outdents_outdent (commonIndentation_le hl)
  have hall : List.Forall₂ (Outdents (commonIndentation ls)) ls
      (ls.map (outdent (commonIndentation ls))) := by
    rw [List.forall₂_map_right_iff, List.forall₂_same]
    exact houtdents
  refine ⟨⟨_, hall⟩, ?_, ?_⟩
  · intro hex
    obtain ⟨l, hl, hsolid, hmin⟩ := exists_indentation_eq hex
    have hcut := houtdents l hl
    have hzero : indentation (outdent (commonIndentation ls) l) = 0 := by
      have := hcut.indentation_eq hsolid
      omega
    exact ⟨_, List.mem_map_of_mem hl, by rw [hcut.blankLine_eq, hsolid],
      isBlank_eq_false_of_indentation_eq_zero hzero⟩
  · intro p hp q hq hp' hq'
    have := ((List.forall₂_iff_zip.1 hall).2 hp).indentation_eq hp'
    have := ((List.forall₂_iff_zip.1 hall).2 hq).indentation_eq hq'
    omega

end RouteDocs.Text
