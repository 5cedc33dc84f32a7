import RouteDocs.Json.Reader
import RouteDocs.Proofs.Json.Raw

/-!
# Reading printed JSON

## Main statements

* `RawJson.value_ofJson`: the value of what is written for a value.
* `Json.read?_print`: an ordered value without doubles is read back from its text.
-/

namespace RouteDocs

open Decimal

/-! ## Numbers -/

namespace RawNumber

theorem accumulate_append {n m : Nat} {ds : List Char} (h : accumulate n ds = (m, 0))
    (es : List Char) : accumulate n (ds ++ es) = accumulate m es := by
  induction ds generalizing n with
  | nil =>
    cases h
    rfl
  | cons d ds ih =>
    simp only [accumulate, List.cons_append] at h ⊢
    split at h
    · simp at h
    · rename_i hlimit
      rw [if_neg hlimit, ih h]

theorem accumulate_digits {n : Nat} (h : n ≤ limit) : accumulate 0 (digits n) = (n, 0) := by
  fun_induction digits n with
  | case1 n hn => simp [accumulate, digitValue?_digit hn, Nat.not_lt.2 h]
  | case2 n hn ih =>
    have hd : n % 10 < 10 := Nat.mod_lt _ (by omega)
    have hn' : n / 10 * 10 + n % 10 = n := by omega
    rw [accumulate_append (ih (by omega))]
    simp [accumulate, digitValue?_digit hd, hn', Nat.not_lt.2 h]

theorem value?_ofWhole (n : Whole) : (ofWhole n).value? = some (.whole n) := by
  have hlimit : n.val.natAbs ≤ limit := Nat.le_sub_one_of_lt n.natAbs_lt
  have hval : (if decide (n.val < 0) = true then -(n.val.natAbs : Int) else n.val.natAbs) = n.val := by
    simp only [decide_eq_true_eq]
    split <;> omega
  have hzero : (decide (n.val < 0) && decide (n.val.natAbs = 0)) = false := by
    rw [Bool.and_eq_false_iff, decide_eq_false_iff_not, decide_eq_false_iff_not]
    omega
  simp only [value?, ofWhole, accumulate_digits hlimit, hzero, hval, decide_true, Bool.not_false,
    Bool.and_self, if_true, Whole.ofInt?_val]

end RawNumber

/-! ## Strings -/

/-- An escape below the surrogates is a character on its own. -/
theorem RawString.value?_unit {n : Nat} (h : n < 0xD800) (r : RawString) :
    value? (.unit n :: r) = (value? r).map (Char.ofNat n :: ·) := by
  have hhigh : ¬0xD800 ≤ n := by omega
  have hlow : ¬0xDC00 ≤ n := by omega
  conv => lhs; unfold value?
  simp [hhigh, hlow]

theorem RawString.value?_ofChar (c : Char) (r : RawString) :
    value? (.ofChar c :: r) = (value? r).map (c :: ·) := by
  rw [RawChar.ofChar]
  split
  · rename_i hc
    rw [value?_unit (by omega), Char.ofNat_toNat]
  · rfl

theorem RawString.value?_ofString (s : String) : value? (.ofString s) = some s.toList := by
  rw [ofString]
  induction s.toList with
  | nil => rfl
  | cons c cs ih => simp [value?_ofChar, ih]

/-! ## Values -/

namespace RawJson

theorem itemValues_eq {depth : Nat} {items : List Json}
    (h : ∀ x ∈ items, value depth (ofJson x) = some x) :
    itemValues depth (ofItems items) = some items := by
  induction items with
  | nil => rfl
  | cons x items ih =>
    have hx := h x List.mem_cons_self
    have hitems := ih fun y hy => h y (List.mem_cons_of_mem _ hy)
    simp [itemValues, ofItems, hx, hitems]

theorem memberValues_eq {depth : Nat} {members : List (String × Json)}
    (h : ∀ m ∈ members, value depth (ofJson m.2) = some m.2) :
    memberValues depth (ofMembers members) = some members := by
  induction members with
  | nil => rfl
  | cons m members ih =>
    have hm := h m List.mem_cons_self
    have hmembers := ih fun y hy => h y (List.mem_cons_of_mem _ hy)
    simp [memberValues, ofMembers, RawString.value?_ofString, hm, hmembers]

theorem value_ofJson {j : Json} {n : Nat} (hdepth : j.depth ≤ n) (hfree : j.IsFloatFree)
    (hordered : j.IsOrdered) : value (n + 1) (ofJson j) = some j := by
  induction j using Json.induction generalizing n with
  | null => rfl
  | bool b => rfl
  | number x =>
    cases x with
    | float x => simp [Json.IsFloatFree, Json.Everywhere, Json.NotFloat] at hfree
    | whole x => simp [ofJson, value, RawNumber.value?_ofWhole]
  | string s => simp [ofJson, value, RawString.value?_ofString]
  | array items ih =>
    obtain ⟨n, rfl, hitems⟩ := Json.depth_array_le_iff.1 hdepth
    have hfrees := Json.isFloatFree_array_iff.1 hfree
    have hordereds := Json.isOrdered_array_iff.1 hordered
    have hvalues : itemValues (n + 1) (ofItems items) = some items :=
      itemValues_eq fun x hx => ih x hx (hitems x hx) (hfrees x hx) (hordereds x hx)
    simp [ofJson, value, hvalues]
  | object members ih =>
    obtain ⟨n, rfl, hmembers⟩ := Json.depth_object_le_iff.1 hdepth
    have hfrees := Json.isFloatFree_object_iff.1 hfree
    obtain ⟨hascend, hordereds⟩ := Json.isOrdered_object_iff.1 hordered
    have hvalues : memberValues (n + 1) (ofMembers members) = some members :=
      memberValues_eq fun m hm => ih m hm (hmembers m hm) (hfrees m hm) (hordereds m hm)
    simp [ofJson, value, hvalues, Json.ofMembers_eq hascend]

end RawJson

/-- A value is read back from its text. -/
theorem Json.read?_print {j : Json} (hdepth : j.depth ≤ 127) (hfree : j.IsFloatFree)
    (hordered : j.IsOrdered) : read? j.print.toList = some j := by
  rw [read?, RawJson.read?_print hfree, Option.bind_some]
  exact RawJson.value_ofJson hdepth hfree hordered

end RouteDocs
