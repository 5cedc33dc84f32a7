import RouteDocs.Proofs.Decimal
import RouteDocs.Proofs.Yaml.Place

/-!
# The meaning of plain scalars

Whole numbers are written plain and mean what they were. A string is written plain only if it means
itself.

## Main statements

* `plainAllowed_integer`, `Plain.value?_integer`: whole numbers.
* `Plain.value?_of_ambiguous`: strings.
-/

namespace RouteDocs.Yaml

open Decimal (integer digits digit isDigit)

/-! ## Whole numbers as text -/

/-- A character that means nothing to the scan, wherever it stands in a whole number. -/
structure IsNumeral (c : Char) : Prop where
  printable : isPrintable c = true
  notBreak : isBreak c = false
  notLeading : isLeadingIndicator c = false
  notMark : c ∉ [' ', '#', ':', '?', '.']

instance (c : Char) : Decidable (IsNumeral c) :=
  decidable_of_iff (isPrintable c = true ∧ isBreak c = false ∧ isLeadingIndicator c = false ∧
    c ∉ [' ', '#', ':', '?', '.']) ⟨fun ⟨h₁, h₂, h₃, h₄⟩ => ⟨h₁, h₂, h₃, h₄⟩,
      fun h => ⟨h.printable, h.notBreak, h.notLeading, h.notMark⟩⟩

theorem isNumeral_of_mem_integer {n : Int} {c : Char} (h : c ∈ integer n) : IsNumeral c := by
  have hdash : IsNumeral '-' := by decide
  have hdigit : ∀ d < 10, IsNumeral (digit d) := by decide
  have hdigits : ∀ c ∈ digits n.natAbs, IsNumeral c := by
    intro c hc
    obtain ⟨d, hd, rfl⟩ := Decimal.exists_digit_of_mem_digits hc
    exact hdigit d hd
  rw [integer] at h
  split at h
  · rcases List.mem_cons.1 h with rfl | h
    · exact hdash
    · exact hdigits c h
  · exact hdigits c h

theorem hasIndicator_eq_false {s : List Char} (h : ∀ c ∈ s, IsNumeral c) (before : Char) :
    hasIndicator before s = false := by
  induction s generalizing before with
  | nil => rfl
  | cons c s ih =>
    obtain ⟨hc, hs⟩ := List.forall_mem_cons.1 h
    have hmark := hc.notMark
    simp only [List.mem_cons, not_or] at hmark
    simp [hasIndicator, ih hs, hmark]

/-- A minus sign stands in front of a digit. -/
theorem exists_of_integer_eq_cons {n : Int} {r : List Char} (h : integer n = '-' :: r) :
    ∃ d s, r = d :: s ∧ d ≠ '-' := by
  have hdigit : ∀ c ∈ digits n.natAbs, c ≠ '-' := by
    intro c hc
    obtain ⟨d, hd, rfl⟩ := Decimal.exists_digit_of_mem_digits hc
    exact (by decide : ∀ d < 10, digit d ≠ '-') d hd
  obtain ⟨d, s, hds⟩ := List.exists_cons_of_ne_nil (Decimal.digits_ne_nil n.natAbs)
  rw [hds] at hdigit
  rw [integer] at h
  split at h
  · refine ⟨d, s, ?_, hdigit d List.mem_cons_self⟩
    rw [← hds]
    exact (List.cons.inj h).2.symm
  · rw [hds] at h
    exact absurd (List.cons.inj h).1 (hdigit d List.mem_cons_self)

theorem plainAllowed_integer (n : Int) : plainAllowed (integer n) = true := by
  have hnumeral : ∀ c ∈ integer n, IsNumeral c := fun c hc => isNumeral_of_mem_integer hc
  obtain ⟨c, r, hcr⟩ := List.exists_cons_of_ne_nil (Decimal.integer_ne_nil n)
  have hdash : c = '-' → ∃ d s, r = d :: s ∧ d ≠ '-' := by
    rintro rfl
    exact exists_of_integer_eq_cons hcr
  have hlast : (integer n).getLast? ≠ some ' ' := by
    intro h
    have hmem := List.mem_of_getLast? h
    exact (hnumeral _ hmem).notMark (by simp)
  rw [hcr] at hnumeral hlast ⊢
  obtain ⟨hc, hr⟩ := List.forall_mem_cons.1 hnumeral
  have hmark := hc.notMark
  have hbreak : hasBreak (c :: r) = false :=
    List.any_eq_false.2 fun d hd => by simp [(hnumeral d hd).notBreak]
  have hspecial : hasSpecial (c :: r) = false :=
    List.any_eq_false.2 fun d hd => by simp [(hnumeral d hd).printable]
  simp only [List.mem_cons, not_or] at hmark
  have hmisread : misread (c :: r) = false := by
    have hindicator := hasIndicator_eq_false hr c
    have hnext : c = '-' → atBlankOrEnd r = false := by
      intro h
      obtain ⟨d, s, rfl, -⟩ := hdash h
      have hd := hr d List.mem_cons_self
      have hblank := isBlank_eq_false_of_ne hd.printable fun h => hd.notMark (by simp [h])
      simp [atBlankOrEnd, hblank, hd.notBreak]
    unfold misread
    split
    · rename_i heq
      obtain ⟨d, s, hds, hd⟩ := hdash (List.cons.inj heq).1
      rw [hds] at heq
      exact absurd (List.cons.inj (List.cons.inj heq).2).1 hd
    · rename_i heq
      exact absurd (List.cons.inj heq).1 hmark.2.2.2.2.1
    · rename_i heq
      cases heq
    · rename_i heq
      cases heq
      by_cases h : c = '-'
      · simp [hc.notLeading, hnext h, hindicator]
      · simp [hc.notLeading, h, hmark, hindicator]
  simp [plainAllowed, hmisread, hbreak, hspecial, hmark, hlast]

/-! ## Meaning -/

namespace Plain

/-- Digits do not start with a sign, and with a zero only if there is no other digit. -/
theorem exists_digits_eq_cons (n : Nat) :
    ∃ c s, digits n = c :: s ∧ isDigit c = true ∧ (c = '0' → s = []) := by
  obtain ⟨c, s, hcs⟩ := List.exists_cons_of_ne_nil (Decimal.digits_ne_nil n)
  refine ⟨c, s, hcs, Decimal.isDigit_of_mem_digits (n := n) (by simp [hcs]), ?_⟩
  rintro rfl
  rcases Nat.lt_or_ge n 10 with hlt | hge
  · rw [Decimal.digits_of_lt hlt] at hcs
    exact (List.cons.inj hcs).2.symm
  · exact absurd (by rw [hcs]; rfl) (Decimal.head?_digits_ne_zero hge)

theorem natural?_digits (n : Nat) : natural? (digits n) = some n := by
  have hread : digits? 10 (digits n) = some n := by
    simp [digits?]
  obtain ⟨c, s, hcs, -, hzero⟩ := exists_digits_eq_cons n
  rw [hcs] at hread ⊢
  unfold natural?
  split
  · rename_i heq
    cases heq
    cases hzero rfl
  · rename_i heq
    cases heq
    cases hzero rfl
  · rename_i heq
    cases heq
    cases hzero rfl
  · exact hread

theorem dropSign_integer (n : Int) : dropSign (integer n) = digits n.natAbs := by
  obtain ⟨c, s, hcs, hc, -⟩ := exists_digits_eq_cons n.natAbs
  rw [integer]
  split
  · rfl
  · rw [hcs]
    unfold dropSign
    split
    · rename_i heq
      cases heq
      cases hc
    · rename_i heq
      cases heq
      cases hc
    · rfl

theorem hasLeadingZero_integer (n : Int) : hasLeadingZero (integer n) = false := by
  obtain ⟨c, s, hcs, -, hzero⟩ := exists_digits_eq_cons n.natAbs
  rw [hasLeadingZero, dropSign_integer, hcs]
  split
  · rename_i heq
    cases heq
    cases hzero rfl
  · rfl

theorem integer?_integer (n : Int) : integer? (integer n) = some n := by
  have hread := natural?_digits n.natAbs
  have hzero := hasLeadingZero_integer n
  rcases Int.lt_or_le n 0 with hneg | hnonneg
  · have habs : -(n.natAbs : Int) = n := by omega
    rw [Decimal.integer_of_neg hneg] at hzero ⊢
    unfold integer?
    simp only [hzero, Bool.false_eq_true, if_false, hread]
    exact congrArg some habs
  · have habs : (n.natAbs : Int) = n := by omega
    obtain ⟨c, s, hcs, hc, -⟩ := exists_digits_eq_cons n.natAbs
    rw [Decimal.integer_of_nonneg hnonneg] at hzero ⊢
    rw [hcs] at hread hzero ⊢
    unfold integer?
    simp only [hzero, Bool.false_eq_true, if_false]
    split
    · rename_i heq
      cases heq
      cases hc
    · rename_i heq
      cases heq
      cases hc
    · rw [hread]
      exact congrArg some habs

/-- A whole number means itself. -/
theorem value?_integer (n : Whole) : value? (integer n.val) = some (.number (.whole n)) := by
  obtain ⟨c, r, hcr, hc⟩ : ∃ c r, integer n.val = c :: r ∧ (c = '-' ∨ isDigit c = true) := by
    obtain ⟨d, s, hds, hd, -⟩ := exists_digits_eq_cons n.val.natAbs
    rw [integer]
    split
    · exact ⟨_, _, rfl, .inl rfl⟩
    · exact ⟨d, s, hds, .inr hd⟩
  have hletter : ∀ d ∈ ['~', 'n', 'N', 't', 'T', 'f', 'F'], c ≠ d := by
    rintro d hd rfl
    rcases hc with rfl | hc
    · simp at hd
    · simp only [List.mem_cons, List.not_mem_nil, or_false] at hd
      rcases hd with rfl | rfl | rfl | rfl | rfl | rfl | rfl <;> cases hc
  simp only [List.forall_mem_cons] at hletter
  have hnull : isNull (c :: r) = false := by
    simp [isNull, hletter]
  have hbool : bool? (c :: r) = none := by
    simp [bool?, hletter]
  have hread := integer?_integer n.val
  have hfits : isRefused n.val = false := by
    simp [isRefused]
  rw [hcr] at hread ⊢
  simp [value?, hnull, hbool, hread, hfits]

/-- A string that is not ambiguous means itself. -/
theorem value?_of_ambiguous {s : List Char} (h : ambiguous s = false) :
    value? s = some (.string (String.ofList s)) := by
  have hstring : ∀ t, value? s = some (.string t) → t = String.ofList s := by
    intro t ht
    unfold value? value?.wide at ht
    grind
  unfold ambiguous at h
  split at h
  · rename_i t heq
    rw [heq, hstring t heq]
  · simp at h

end Plain

end RouteDocs.Yaml
