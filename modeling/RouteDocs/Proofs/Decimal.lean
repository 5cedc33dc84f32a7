import RouteDocs.Data.Number
import RouteDocs.Decimal.Digits

/-!
# Digits read back

## Main statements

* `Decimal.ofDigits?_digits`: the digits of a number stand for it.
* `Decimal.head?_digits_ne_zero`: no zero stands in front of other digits.
* `Decimal.integer_ne_nil`, `Decimal.isDigit_of_mem_digits`: the shape of a whole number.
-/

namespace RouteDocs.Decimal

theorem isDigit_digit {d : Nat} (h : d < 10) : isDigit (digit d) = true :=
  (by decide : ∀ d < 10, isDigit (digit d) = true) d h

@[simp] theorem digitValue?_digit {d : Nat} (h : d < 10) : digitValue? (digit d) = some d :=
  (by decide : ∀ d < 10, digitValue? (digit d) = some d) d h

theorem digit_ne_zero {d : Nat} (h : d < 10) (h₀ : d ≠ 0) : digit d ≠ '0' :=
  (by decide : ∀ d < 10, d ≠ 0 → digit d ≠ '0') d h h₀

theorem exists_digit_of_mem_digits {n : Nat} {c : Char} (h : c ∈ digits n) :
    ∃ d < 10, c = digit d := by
  fun_induction digits n with
  | case1 n hn => exact ⟨n, hn, List.mem_singleton.1 h⟩
  | case2 n hn ih =>
    rcases List.mem_append.1 h with h | h
    · exact ih h
    · exact ⟨n % 10, by omega, List.mem_singleton.1 h⟩

theorem isDigit_of_mem_digits {n : Nat} {c : Char} (h : c ∈ digits n) : isDigit c = true := by
  obtain ⟨d, hd, rfl⟩ := exists_digit_of_mem_digits h
  exact isDigit_digit hd

@[simp] theorem digits_ne_nil (n : Nat) : digits n ≠ [] := by
  rw [digits]
  split <;> simp

/-- A number of more than one digit does not start with a zero. -/
theorem head?_digits_ne_zero {n : Nat} (h : 10 ≤ n) : (digits n).head? ≠ some '0' := by
  fun_induction digits n with
  | case1 => omega
  | case2 n hn ih =>
    rw [List.head?_append, Option.or_of_isSome (List.isSome_head?.2 (digits_ne_nil _))]
    rcases Nat.lt_or_ge (n / 10) 10 with hlt | hge
    · rw [digits, if_pos hlt]
      simpa using digit_ne_zero hlt (by omega)
    · exact ih hge

theorem digits_of_lt {n : Nat} (h : n < 10) : digits n = [digit n] := by
  rw [digits, if_pos h]

/-! ## The number that digits stand for -/

theorem ofDigits?_append {base : Nat} (ds es : List Char) :
    ofDigits? base (ds ++ es) =
      es.foldl (fun acc c => do
        let n ← acc
        let d ← digitValue? c
        if d < base then some (n * base + d) else none) (ofDigits? base ds) :=
  List.foldl_append

theorem ofDigits?_append_singleton {base n d : Nat} {ds : List Char} {c : Char}
    (hn : ofDigits? base ds = some n) (hc : digitValue? c = some d) (hd : d < base) :
    ofDigits? base (ds ++ [c]) = some (n * base + d) := by
  simp [ofDigits?_append, hn, hc, hd]

@[simp] theorem ofDigits?_digits (n : Nat) : ofDigits? 10 (digits n) = some n := by
  fun_induction digits n with
  | case1 n hn => simp [ofDigits?, digitValue?_digit hn, hn]
  | case2 n hn ih =>
    have hd : n % 10 < 10 := Nat.mod_lt _ (by omega)
    rw [ofDigits?_append_singleton ih (digitValue?_digit hd) hd]
    congr 1
    omega

/-! ## Whole numbers -/

@[simp] theorem integer_ne_nil (n : Int) : integer n ≠ [] := by
  simp only [integer]
  split <;> simp

theorem integer_of_neg {n : Int} (h : n < 0) : integer n = '-' :: digits n.natAbs := by
  simp [integer, h]

theorem integer_of_nonneg {n : Int} (h : 0 ≤ n) : integer n = digits n.natAbs := by
  simp [integer, Int.not_lt.2 h]

end RouteDocs.Decimal

namespace RouteDocs.Whole

theorem natAbs_lt (n : Whole) : n.val.natAbs < 0x10000000000000000 := by
  have := n.neg_two_pow_le
  have := n.lt_two_pow
  omega

@[simp] theorem ofInt?_val (n : Whole) : ofInt? n.val = some n := by
  rw [ofInt?, dif_pos ⟨n.neg_two_pow_le, n.lt_two_pow⟩]

end RouteDocs.Whole
