import RouteDocs.Text.Blank
import RouteDocs.Text.Search

/-!
# Laws of searching and trimming

## Main statements

* `Text.splitAtFirst?_eq_some_iff`, `Text.splitAtFirst?_eq_none_iff`: the split is at the first
  occurrence, if there is one.
* `Text.splitAtFirst?_append`, `Text.splitAtFirst?_append_cons`: the first occurrence in a longer
  text.
* `Text.trimEnd_eq_iff`: what stays is followed by white space only and does not end with it.
* `Text.trim_eq_iff`: what stays stands between white space, and neither starts nor ends with it.
* `Text.takeWhile_append_of_all`, `Text.dropWhile_append_of_all`: where a run of characters ends.
* `Text.splitOn_append_cons`: the pieces before and after a separator.
* `Text.splitOn_eq_iff`: the pieces hold no separator, and joined by it they make up the text.
* `Text.ne_nil_of_mem_getLast?_splitOn`: the last piece of a text is empty only if the text ends with
  the separator.
-/

namespace RouteDocs.Text

/-! ## Prefixes and suffixes -/

theorem strip?_append (p s : List Char) : strip? p (p ++ s) = some s := strip?_eq_some_iff.2 rfl

theorem strip?_eq_none_iff {p s : List Char} : strip? p s = none ↔ ¬p <+: s := by
  constructor
  · rintro h ⟨t, rfl⟩
    simp [strip?_append] at h
  · intro h
    cases ht : strip? p s with
    | none => rfl
    | some t => exact absurd ⟨t, (strip?_eq_some_iff.1 ht).symm⟩ h

theorem stripEnd?_eq_some_iff {p s t : List Char} : stripEnd? p s = some t ↔ s = t ++ p := by
  simp only [stripEnd?, Option.map_eq_some_iff, strip?_eq_some_iff]
  constructor
  · rintro ⟨r, hs, rfl⟩
    simpa using congrArg List.reverse hs
  · rintro rfl
    exact ⟨t.reverse, by simp, by simp⟩

theorem stripEnd?_eq_none_iff {p s : List Char} : stripEnd? p s = none ↔ ¬p <:+ s := by
  rw [stripEnd?, Option.map_eq_none_iff, strip?_eq_none_iff, List.reverse_prefix]

theorem strip?_cons_of_not_mem {p s : List Char} (hne : p ≠ []) {c : Char} (hc : c ∉ p) :
    strip? p (c :: s) = none := by
  cases p with
  | nil => exact absurd rfl hne
  | cons x p => simp [strip?, (List.ne_of_not_mem_cons hc).symm]

/-- A prefix without a character ends in front of it. -/
theorem prefix_of_prefix_append_cons {p a s : List Char} {c : Char} (hc : c ∉ p)
    (h : p <+: a ++ c :: s) : p <+: a := by
  have hcut : a ++ [c] <+: a ++ c :: s := ⟨s, by simp⟩
  rcases List.prefix_or_prefix_of_prefix h hcut with hp | hp
  · rcases List.prefix_concat_iff.1 hp with rfl | hp
    · simp at hc
    · exact hp
  · exact absurd (hp.subset (by simp)) hc

/-! ## The first occurrence -/

theorem splitAtFirst?_eq_some_iff {p s a b : List Char} :
    splitAtFirst? p s = some (a, b) ↔ s = a ++ p ++ b ∧ ∀ q < a.length, ¬p <+: s.drop q := by
  induction s generalizing a with
  | nil =>
    simp only [splitAtFirst?, Option.map_eq_some_iff, strip?_eq_some_iff, Prod.mk.injEq]
    constructor
    · rintro ⟨t, ht, rfl, rfl⟩
      exact ⟨by simpa using ht, by simp⟩
    · rintro ⟨h, -⟩
      have ha : a = [] ∧ p = [] ∧ b = [] := by simpa using h
      exact ⟨b, by simp [ha], ha.1.symm, rfl⟩
  | cons c s ih =>
    rw [splitAtFirst?]
    cases ht : strip? p (c :: s) with
    | some t =>
      have hpre := strip?_eq_some_iff.1 ht
      simp only [Option.some.injEq, Prod.mk.injEq]
      constructor
      · rintro ⟨rfl, rfl⟩
        exact ⟨by simpa using hpre, by simp⟩
      · rintro ⟨h, hfirst⟩
        cases a with
        | nil => exact ⟨rfl, List.append_cancel_left (hpre.symm.trans h)⟩
        | cons x a => exact absurd ⟨t, hpre.symm⟩ (hfirst 0 (by simp))
    | none =>
      have hnot := strip?_eq_none_iff.1 ht
      simp only [Option.map_eq_some_iff, Prod.mk.injEq, Prod.exists]
      constructor
      · rintro ⟨x, y, hxy, rfl, rfl⟩
        obtain ⟨rfl, hfirst⟩ := ih.1 hxy
        refine ⟨rfl, fun q hq => ?_⟩
        cases q with
        | zero => exact hnot
        | succ q => exact hfirst q (by simpa using hq)
      · rintro ⟨h, hfirst⟩
        cases a with
        | nil => exact absurd ⟨b, by simpa using h.symm⟩ hnot
        | cons x a =>
          obtain ⟨rfl, hs⟩ : c = x ∧ s = a ++ p ++ b := by simpa using h
          exact ⟨a, b, ih.2 ⟨hs, fun q hq => hfirst (q + 1) (by simpa using hq)⟩, rfl, rfl⟩

theorem splitAtFirst?_eq_none_iff {p s : List Char} :
    splitAtFirst? p s = none ↔ ∀ q ≤ s.length, ¬p <+: s.drop q := by
  induction s with
  | nil => simp [splitAtFirst?, strip?_eq_none_iff]
  | cons c s ih =>
    rw [splitAtFirst?]
    cases ht : strip? p (c :: s) with
    | some t =>
      simp only [reduceCtorEq, false_iff]
      exact fun h => h 0 (by simp) ⟨t, (strip?_eq_some_iff.1 ht).symm⟩
    | none =>
      simp only [Option.map_eq_none_iff, ih]
      constructor
      · intro h q hq
        cases q with
        | zero => exact strip?_eq_none_iff.1 ht
        | succ q => exact h q (by simpa using hq)
      · intro h q hq
        exact h (q + 1) (by simpa using hq)

theorem splitAtFirst?_self_append (p s : List Char) : splitAtFirst? p (p ++ s) = some ([], s) :=
  splitAtFirst?_eq_some_iff.2 ⟨rfl, by simp⟩

/-- What is found in a text is found in a longer one. -/
theorem splitAtFirst?_append {p s a b : List Char} (h : splitAtFirst? p s = some (a, b))
    (t : List Char) : splitAtFirst? p (s ++ t) = some (a, b ++ t) := by
  obtain ⟨rfl, hfirst⟩ := splitAtFirst?_eq_some_iff.1 h
  refine splitAtFirst?_eq_some_iff.2 ⟨by simp, fun q hq hpre => hfirst q hq ?_⟩
  rw [List.drop_append_of_le_length (by simp; omega)] at hpre
  exact List.prefix_of_prefix_length_le hpre (List.prefix_append _ t) (by simp; omega)

/-- Behind a text without an occurrence, and a character that is not looked for, the search starts
anew. -/
theorem splitAtFirst?_append_cons {p a s : List Char} {c : Char} (hne : p ≠ []) (hc : c ∉ p)
    (ha : ¬p <:+: a) :
    splitAtFirst? p (a ++ c :: s) = (splitAtFirst? p s).map fun (x, y) => (a ++ c :: x, y) := by
  induction a with
  | nil => simp [splitAtFirst?, strip?_cons_of_not_mem hne hc]
  | cons d a ih =>
    have hnot : strip? p (d :: (a ++ c :: s)) = none := strip?_eq_none_iff.2 fun hpre =>
      ha (prefix_of_prefix_append_cons (a := d :: a) hc hpre).isInfix
    have htail : ¬p <:+: a := fun h => ha (List.infix_cons_iff.2 (.inr h))
    rw [List.cons_append, splitAtFirst?, hnot, ih htail]
    cases splitAtFirst? p s <;> rfl

/-- A text does not occur where its first character does not. -/
theorem splitAtFirst?_append_of_not_mem {c : Char} {p a : List Char} (h : c ∉ a) (s : List Char) :
    splitAtFirst? (c :: p) (a ++ s) =
      (splitAtFirst? (c :: p) s).map fun (x, y) => (a ++ x, y) := by
  induction a with
  | nil => simp
  | cons d a ih =>
    have hd : c ≠ d := List.ne_of_not_mem_cons h
    have hnone : strip? (c :: p) (d :: (a ++ s)) = none := by simp [strip?, hd]
    rw [List.cons_append, splitAtFirst?, hnone]
    simp [ih (List.not_mem_of_not_mem_cons h), Function.comp_def]

/-! ## Trimming -/

/-- A text that does not end with white space. -/
def EndsSolid (s : List Char) : Prop := ∀ c ∈ s.getLast?, isSpace c = false

theorem trimEnd_append_of_all {s t : List Char} (ht : ∀ c ∈ t, isSpace c = true)
    (hs : EndsSolid s) : trimEnd (s ++ t) = s := by
  induction s with
  | nil =>
    induction t with
    | nil => rfl
    | cons c t ih =>
      have hrest : trimEnd t = [] := ih fun d hd => ht d (List.mem_cons_of_mem _ hd)
      simp [trimEnd, hrest, ht c (by simp)]
  | cons c s ih =>
    cases s with
    | nil =>
      have hrest : trimEnd t = [] := ih (by simp [EndsSolid])
      have hc : isSpace c = false := hs c (by simp)
      simp [trimEnd, hrest, hc]
    | cons d s =>
      have hrest : trimEnd (d :: s ++ t) = d :: s := ih (by simpa [EndsSolid] using hs)
      simp only [List.cons_append] at hrest ⊢
      rw [trimEnd, hrest]

theorem exists_append_trimEnd (s : List Char) :
    ∃ t, s = trimEnd s ++ t ∧ (∀ c ∈ t, isSpace c = true) ∧ EndsSolid (trimEnd s) := by
  induction s with
  | nil => exact ⟨[], rfl, by simp, by simp [EndsSolid, trimEnd]⟩
  | cons c s ih =>
    obtain ⟨t, hs, ht, hsolid⟩ := ih
    rw [trimEnd]
    cases htrim : trimEnd s with
    | nil =>
      rw [htrim] at hs
      by_cases hc : isSpace c = true
      · refine ⟨c :: t, by simp [hc, hs], ?_, by simp [hc, EndsSolid]⟩
        simpa [hc] using ht
      · exact ⟨t, by simp [hc, hs], ht, by simp [EndsSolid, hc]⟩
    | cons d r =>
      rw [htrim] at hs hsolid
      exact ⟨t, by simp [hs], ht, by simpa [EndsSolid] using hsolid⟩

theorem trimEnd_eq_iff {s r : List Char} :
    trimEnd s = r ↔ ∃ t, s = r ++ t ∧ (∀ c ∈ t, isSpace c = true) ∧ EndsSolid r := by
  constructor
  · rintro rfl
    exact exists_append_trimEnd s
  · rintro ⟨t, rfl, ht, hr⟩
    exact trimEnd_append_of_all ht hr

/-! ## Runs of characters -/

theorem takeWhile_append_of_all {p : Char → Bool} {a s : List Char} (ha : ∀ c ∈ a, p c = true)
    (hs : ∀ c ∈ s.head?, p c = false) : (a ++ s).takeWhile p = a := by
  rw [List.takeWhile_append_of_pos ha]
  cases s with
  | nil => simp
  | cons c s => simp [hs c (by simp)]

theorem dropWhile_append_of_all {p : Char → Bool} {a s : List Char} (ha : ∀ c ∈ a, p c = true)
    (hs : ∀ c ∈ s.head?, p c = false) : (a ++ s).dropWhile p = s := by
  rw [List.dropWhile_append_of_pos ha]
  cases s with
  | nil => rfl
  | cons c s => simp [hs c (by simp)]

/-! ## Trimming at both ends -/

/-- `t` is what stays of `s` without the white space at its ends. -/
def IsTrimmed (s t : List Char) : Prop :=
  ∃ a b, s = a ++ (t ++ b) ∧ (∀ c ∈ a, isSpace c = true) ∧ (∀ c ∈ b, isSpace c = true) ∧
    (∀ c ∈ t.head?, isSpace c = false) ∧ EndsSolid t

theorem isTrimmed_trim (s : List Char) : IsTrimmed s (trim s) := by
  obtain ⟨b, htrim, hb, hend⟩ := exists_append_trimEnd (trimStart s)
  refine ⟨s.takeWhile isSpace, b, ?_, fun c hc => ?_, hb, fun c hc => ?_, hend⟩
  · rw [trim, ← htrim]
    exact List.takeWhile_append_dropWhile.symm
  · exact List.all_eq_true.1 List.all_takeWhile c hc
  · -- unless nothing stays, the first character is that of the text trimmed at its start
    have hhead : (trimStart s).head? = some c := by
      rw [htrim, List.head?_append, ← trim, Option.mem_def.1 hc, Option.some_or]
    have hnot := List.head?_dropWhile_not isSpace s
    rw [← trimStart, hhead] at hnot
    simpa using hnot

theorem trim_eq_iff {s t : List Char} : trim s = t ↔ IsTrimmed s t := by
  constructor
  · rintro rfl
    exact isTrimmed_trim s
  · rintro ⟨a, b, rfl, ha, hb, hstart, hend⟩
    cases t with
    | nil =>
      have hblank : ∀ c ∈ a ++ b, isSpace c = true := by grind
      have hdrop := dropWhile_append_of_all (s := []) hblank (by simp)
      rw [trim, trimStart, List.nil_append, ← List.append_nil (a ++ b), hdrop]
      rfl
    | cons c t =>
      have hdrop := dropWhile_append_of_all (s := c :: t ++ b) ha (by simpa using hstart)
      rw [trim, trimStart, hdrop]
      exact trimEnd_append_of_all hb hend

/-! ## Pieces -/

theorem splitOn_ne_nil (sep : Char) (s : List Char) : splitOn sep s ≠ [] := by
  fun_cases splitOn sep s <;> simp

/-- The pieces before a separator and those after it. -/
theorem splitOn_append_cons (sep : Char) (s t : List Char) :
    splitOn sep (s ++ sep :: t) = splitOn sep s ++ splitOn sep t := by
  induction s with
  | nil => simp [splitOn]
  | cons c s ih =>
    rw [List.cons_append, splitOn, splitOn, ih]
    split
    · rfl
    · cases hs : splitOn sep s with
      | nil => exact absurd hs (splitOn_ne_nil sep s)
      | cons piece pieces => rfl

theorem splitOn_of_not_mem {sep : Char} {s : List Char} (h : sep ∉ s) : splitOn sep s = [s] := by
  induction s with
  | nil => rfl
  | cons c s ih =>
    rw [splitOn, if_neg (List.ne_of_not_mem_cons h).symm, ih (List.not_mem_of_not_mem_cons h)]

/-- What is joined holds nothing but the pieces and what stands between them. -/
theorem mem_of_mem_intercalate {sep : List Char} {pieces : List (List Char)} {c : Char}
    (h : c ∈ List.intercalate sep pieces) : c ∈ sep ∨ ∃ p ∈ pieces, c ∈ p := by
  induction pieces with
  | nil => simp at h
  | cons p pieces ih =>
    cases pieces <;> grind [List.intercalate_cons_cons, List.intercalate_singleton]

theorem intercalate_splitOn (sep : Char) (s : List Char) :
    List.intercalate [sep] (splitOn sep s) = s := by
  induction s with
  | nil => rfl
  | cons c s ih =>
    obtain ⟨piece, pieces, hs⟩ := List.exists_cons_of_ne_nil (splitOn_ne_nil sep s)
    rw [hs] at ih
    rw [splitOn, hs]
    split
    · grind [List.intercalate_cons_cons]
    · cases pieces <;> grind [List.intercalate_cons_cons, List.intercalate_singleton]

theorem not_mem_of_mem_splitOn {sep : Char} {s p : List Char} (h : p ∈ splitOn sep s) :
    sep ∉ p := by
  induction s generalizing p with
  | nil => simp_all [splitOn]
  | cons c s ih =>
    obtain ⟨piece, pieces, hs⟩ := List.exists_cons_of_ne_nil (splitOn_ne_nil sep s)
    rw [splitOn, hs] at h
    grind

theorem splitOn_intercalate {sep : Char} {pieces : List (List Char)} (hne : pieces ≠ [])
    (h : ∀ p ∈ pieces, sep ∉ p) : splitOn sep (List.intercalate [sep] pieces) = pieces := by
  induction pieces with
  | nil => exact absurd rfl hne
  | cons p pieces ih =>
    obtain ⟨hp, hpieces⟩ := List.forall_mem_cons.1 h
    cases pieces with
    | nil => simpa using splitOn_of_not_mem hp
    | cons q pieces =>
      rw [List.intercalate_cons_cons, List.append_assoc, List.singleton_append,
        splitOn_append_cons, splitOn_of_not_mem hp, ih (by simp) hpieces, List.singleton_append]

theorem splitOn_eq_iff {sep : Char} {s : List Char} {pieces : List (List Char)} :
    splitOn sep s = pieces ↔
      pieces ≠ [] ∧ (∀ p ∈ pieces, sep ∉ p) ∧ List.intercalate [sep] pieces = s := by
  constructor
  · rintro rfl
    exact ⟨splitOn_ne_nil sep s, fun _ => not_mem_of_mem_splitOn, intercalate_splitOn sep s⟩
  · rintro ⟨hne, h, rfl⟩
    exact splitOn_intercalate hne h

/-- The last piece is empty only if there is no text after the last separator. -/
theorem ne_nil_of_mem_getLast?_splitOn {sep : Char} {s last : List Char} (hne : s ≠ [])
    (hsep : s.getLast? ≠ some sep) (hlast : last ∈ (splitOn sep s).getLast?) : last ≠ [] := by
  induction s with
  | nil => exact absurd rfl hne
  | cons c s ih =>
    cases s with
    | nil =>
      have hc : c ≠ sep := by simpa using hsep
      simp [splitOn, hc] at hlast
      simp [← hlast]
    | cons d s =>
      replace ih := ih (by simp) (by simpa using hsep)
      rw [splitOn] at hlast
      cases hpieces : splitOn sep (d :: s) with
      | nil => exact absurd hpieces (splitOn_ne_nil _ _)
      | cons piece pieces =>
        rw [hpieces] at hlast ih
        split at hlast
        · exact ih (by simpa using hlast)
        · cases pieces with
          | nil =>
            simp at hlast
            simp [← hlast]
          | cons => exact ih (by simpa using hlast)

end RouteDocs.Text
